import Osol.Lib.Buffer
import Osol.Lib.Checked

/-!
# Block compression

`lzjb.c`, `zle.c` and the two entries of `zio_compress.c`. Buffers are indexed from their
start, and a pointer into one is its index. LZJB also looks at the address of the source:
its hash table holds the low 16 bits of addresses, and starts with zeroes.

A loop takes a number that bounds its iterations; the callers pass a length that every
iteration brings nearer.
-/

namespace Osol.Zfs.Compress

open Osol.Lib Function

/-! ## LZJB -/

def matchMin : ℕ := 3

def matchMax : ℕ := 66

/-- The variables of `lzjb_compress`. -/
structure LzState where
  src : ℕ
  dst : ℕ
  /-- The index of the flags of the current items. -/
  copymap : ℕ
  copymask : ℕ
  /-- `lempel`, 16 bits each. -/
  lempel : ℕ → ℕ
  /-- The destination. -/
  out : Buf

/-- `&lempel[hash & (LEMPEL_SIZE - 1)]` for three bytes. -/
def lzHash (a b c : Byte) : ℕ :=
  let hash := (a.toNat <<< 16) + (b.toNat <<< 8) + c.toNat
  let hash := hash + hash >>> 9
  let hash := hash + hash >>> 5
  hash &&& 1023

def matchLen (s : Buf) (src cpy : ℕ) : ℕ → ℕ → ℕ
  | 0, mlen => mlen
  | n + 1, mlen =>
    if s (src + mlen) ≠ s (cpy + mlen) then mlen else matchLen s src cpy n (mlen + 1)

/-- The head of the loop body: eight items share a byte of flags. `none` is the return of
`s_len` because the destination is nearly full. -/
def lzGroup (dLen : ℕ) (st : LzState) : Option LzState :=
  if st.copymask * 2 = 256 then
    if dLen ≤ st.dst + 17 then none
    else some { st with
      copymask := 1, copymap := st.dst, dst := st.dst + 1, out := update st.out st.dst 0 }
  else some { st with copymask := st.copymask * 2 }

variable (s : Buf)

/-- A byte as it is. -/
def lzLiteral (st : LzState) : LzState :=
  { st with dst := st.dst + 1, src := st.src + 1, out := update st.out st.dst (s st.src) }

def lzReference (st : LzState) (mlen offset : ℕ) : LzState :=
  let out := update st.out st.copymap
    (st.out st.copymap ||| BitVec.ofNat 8 st.copymask)
  let out := update out st.dst
    (BitVec.ofNat 8 (((mlen - matchMin) <<< 2) ||| (offset >>> 8)))
  let out := update out (st.dst + 1) (BitVec.ofNat 8 offset)
  { st with dst := st.dst + 2, src := st.src + mlen, out := out }

/-- The rest of the loop body, for a source at `addr`. -/
def lzItem (addr : ℕ) (s : Buf) (sLen : ℕ) (st : LzState) : LzState :=
  if sLen < st.src + matchMax then lzLiteral s st
  else
    let h := lzHash (s st.src) (s (st.src + 1)) (s (st.src + 2))
    let offset := (((addr + st.src : ℤ) - st.lempel h) % 1024).toNat
    let st := { st with lempel := update st.lempel h ((addr + st.src) % 65536) }
    let cpy : ℤ := (addr + st.src : ℤ) - offset
    if (addr : ℤ) ≤ cpy ∧ cpy ≠ addr + st.src ∧
        (let c := (cpy - addr).toNat
         s st.src = s c ∧ s (st.src + 1) = s (c + 1) ∧ s (st.src + 2) = s (c + 2)) then
      lzReference st (matchLen s st.src (cpy - addr).toNat (matchMax - matchMin) matchMin) offset
    else lzLiteral s st

def lzLoop (addr : ℕ) (s : Buf) (sLen dLen : ℕ) : ℕ → LzState → ℕ × Buf
  | 0, st => (st.dst, st.out)
  | n + 1, st =>
    if st.src < sLen then
      match lzGroup dLen st with
      | none => (sLen, st.out)
      | some st => lzLoop addr s sLen dLen n (lzItem addr s sLen st)
    else (st.dst, st.out)

def lzjbCompress (addr : ℕ) (s dst : Buf) (sLen dLen : ℕ) : ℕ × Buf :=
  lzLoop addr s sLen dLen sLen
    { src := 0, dst := 0, copymap := 0, copymask := 128, lempel := fun _ => 0, out := dst }

/-- The variables of `lzjb_decompress`. -/
structure UnState where
  src : ℕ
  dst : ℕ
  copymap : Byte
  copymask : ℕ
  out : Buf

/-- `while (--mlen >= 0 && dst < d_end) *dst++ = *cpy++`. -/
def copyBack (dEnd : ℕ) : ℕ → ℕ → ℕ → Buf → ℕ × Buf
  | 0, _, dst, out => (dst, out)
  | mlen + 1, cpy, dst, out =>
    if dst < dEnd then copyBack dEnd mlen (cpy + 1) (dst + 1) (update out dst (out cpy))
    else (dst, out)

/-- The head of the loop body of `lzjb_decompress`. -/
def unGroup (st : UnState) : UnState :=
  if st.copymask * 2 = 256 then
    { st with copymask := 1, copymap := s st.src, src := st.src + 1 }
  else { st with copymask := st.copymask * 2 }

/-- The rest of the loop body; `none` is the return of `-1`. -/
def unItem (dEnd : ℕ) (st : UnState) : Option UnState :=
  if st.copymap.toNat &&& st.copymask ≠ 0 then
    let mlen := ((s st.src).toNat >>> 2) + matchMin
    let offset := (((s st.src).toNat <<< 8) ||| (s (st.src + 1)).toNat) &&& 1023
    if st.dst < offset then none
    else
      let (dst, out) := copyBack dEnd mlen (st.dst - offset) st.dst st.out
      some { st with src := st.src + 2, dst := dst, out := out }
  else
    some { st with
      src := st.src + 1, dst := st.dst + 1, out := update st.out st.dst (s st.src) }

def unLoop (s : Buf) (dEnd : ℕ) : ℕ → UnState → ℤ × Buf
  | 0, st => (0, st.out)
  | n + 1, st =>
    if st.dst < dEnd then
      match unItem s dEnd (unGroup s st) with
      | none => (-1, st.out)
      | some st => unLoop s dEnd n st
    else (0, st.out)

def lzjbDecompress (s dst : Buf) (dLen : ℕ) : ℤ × Buf :=
  unLoop s dLen dLen { src := 0, dst := 0, copymap := 0, copymask := 128, out := dst }

/-! ## ZLE -/

/-- `while (src < MIN(last, s_end) && src[0] == 0) src++`. -/
def zeroRun (s : Buf) (stop : ℕ) : ℕ → ℕ → ℕ
  | 0, src => src
  | n + 1, src => if src < stop ∧ s src = 0 then zeroRun s stop n (src + 1) else src

/-- `while (src < MIN(last, s_end) - 1 && (src[0] | src[1])) *dst++ = *src++`. -/
def literalRun (s : Buf) (stop : ℕ) : ℕ → ℕ → ℕ → Buf → ℕ × ℕ × Buf
  | 0, src, dst, out => (src, dst, out)
  | n + 1, src, dst, out =>
    if src + 1 < stop ∧ s src ||| s (src + 1) ≠ 0 then
      literalRun s stop n (src + 1) (dst + 1) (update out dst (s src))
    else (src, dst, out)

def literalLast (src dst : ℕ) (out : Buf) : ℕ × ℕ × Buf :=
  if s src ≠ 0 then (src + 1, dst + 1, update out dst (s src)) else (src, dst, out)

/-- The loop of `zle_compress`, which ends with `src` and `dst`. -/
def zleLoop (s : Buf) (sEnd dEnd lim : ℕ) : ℕ → ℕ → ℕ → Buf → ℕ × ℕ × Buf
  | 0, src, dst, out => (src, dst, out)
  | n + 1, src, dst, out =>
    if src < sEnd ∧ dst + 1 < dEnd then
      let first := src
      let len := dst
      let dst := dst + 1
      if s src = 0 then
        let src := zeroRun s (min (src + (256 - lim)) sEnd) (256 - lim) src
        zleLoop s sEnd dEnd lim n src dst
          (update out len (BitVec.ofNat 8 (src - first - 1 + lim)))
      else if dEnd - dst < lim then (src, dst, out)
      else
        let (src, dst, out) := literalRun s (min (src + lim) sEnd) lim src dst out
        let (src, dst, out) := literalLast s src dst out
        zleLoop s sEnd dEnd lim n src dst (update out len (BitVec.ofNat 8 (src - first - 1)))
    else (src, dst, out)

def zleCompress (s dst : Buf) (sLen dLen lim : ℕ) : ℕ × Buf :=
  let (src, d, out) := zleLoop s sLen dLen lim sLen 0 0 dst
  (if src = sLen then d else sLen, out)

/-- `while (len-- != 0) *dst++ = *src++`. -/
def copyRun (s : Buf) : ℕ → ℕ → ℕ → Buf → Buf
  | 0, _, _, out => out
  | len + 1, src, dst, out => copyRun s len (src + 1) (dst + 1) (update out dst (s src))

/-- `while (len-- != 0) *dst++ = 0`. -/
def fillRun : ℕ → ℕ → Buf → Buf
  | 0, _, out => out
  | len + 1, dst, out => fillRun len (dst + 1) (update out dst 0)

/-- The loop of `zle_decompress`, which ends with `dst`. -/
def unzleLoop (s : Buf) (sEnd dEnd lim : ℕ) : ℕ → ℕ → ℕ → Buf → ℕ × Buf
  | 0, _, dst, out => (dst, out)
  | n + 1, src, dst, out =>
    if src < sEnd ∧ dst < dEnd then
      let len := 1 + (s src).toNat
      let src := src + 1
      if len ≤ lim then
        unzleLoop s sEnd dEnd lim n (src + len) (dst + len) (copyRun s len src dst out)
      else
        let len := len - lim
        unzleLoop s sEnd dEnd lim n src (dst + len) (fillRun len dst out)
    else (dst, out)

def zleDecompress (s dst : Buf) (sLen dLen lim : ℕ) : ℤ × Buf :=
  let (d, out) := unzleLoop s sLen dLen lim dLen 0 0 dst
  (if d = dLen then 0 else -1, out)

/-! ## The entries -/

def spaMinblocksize : ℕ := 512

/-- The entries of `enum zio_compress` whose functions are in the model. -/
inductive ZioCompress where
  | lzjb
  | zle
  deriving DecidableEq

def ciCompress (c : ZioCompress) (addr : ℕ) (s dst : Buf) (sLen dLen : ℕ) : ℕ × Buf :=
  match c with
  | .lzjb => lzjbCompress addr s dst sLen dLen
  | .zle => zleCompress s dst sLen dLen 64

def bzero (out : Buf) (lo hi : ℕ) : Buf := fun x => if lo ≤ x ∧ x < hi then 0 else out x

/-- `d_len`: the source less an eighth, `P2ALIGN`ed. -/
def compressLimit (sLen : ℕ) : ℕ :=
  (sLen - sLen >>> 3) / spaMinblocksize * spaMinblocksize

/-- `P2ROUNDUP(c_len, SPA_MINBLOCKSIZE)`. -/
def sectorRoundup (n : ℕ) : ℕ :=
  (n + (spaMinblocksize - 1)) / spaMinblocksize * spaMinblocksize

/-- `zio_compress_data`: the length returned and the destination. -/
def zioCompressData (c : ZioCompress) (addr : ℕ) (s dst : Buf) (sLen : ℕ) : ℕ × Buf :=
  if (List.range (sLen / 8)).all (wordIsZero s) then (0, dst)
  else
    let dLen := compressLimit sLen
    if dLen = 0 then (sLen, dst)
    else
      let (cLen, out) := ciCompress c addr s dst sLen dLen
      if dLen < cLen then (sLen, out)
      else
        let rLen := sectorRoundup cLen
        if cLen < rLen then (rLen, bzero out cLen rLen) else (cLen, out)

def zioDecompressData (c : ZioCompress) (s dst : Buf) (sLen dLen : ℕ) : ℤ × Buf :=
  match c with
  | .lzjb => lzjbDecompress s dst dLen
  | .zle => zleDecompress s dst sLen dLen 64

end Osol.Zfs.Compress
