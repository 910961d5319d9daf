import Osol.Lib.Checked
import Osol.Lib.Endian

/-!
# Trace buffers

`dtrace_buffer_reserve` finds room for the record of an enabling in the principal buffer of a
CPU. In a ring buffer the room may have to be taken from old records: the wrapped offset is
moved along them, from EPID to EPID, until it is past the room. `dtrace_buffer_polish` makes a
ring buffer ready to be copied out.

Offsets are at most the size of the buffer, which is in memory, so that sums of an offset and a
size do not wrap around.
-/

namespace Osol.TraceBuf

open Osol.Lib

/-! ## Buffers and enablings -/

/-- `dtb_flags`, as far as the buffer policies use them. -/
structure BufFlags where
  ring : Bool
  fill : Bool
  wrapped : Bool
  full : Bool
  inactive : Bool
  deriving DecidableEq

structure DtraceBuffer where
  flags : BufFlags
  /-- The bytes at `dtb_tomax`, if there is a buffer. -/
  tomax : Option Buf
  tomaxAddr : ℕ
  xamotAddr : ℕ
  size : ℕ
  offset : ℕ
  xamotOffset : ℕ
  drops : ℕ

/-- `dte_size`, `dte_needed` and `dte_alignment` of an ECB. -/
structure Ecb where
  size : ℕ
  needed : ℕ
  alignment : ℕ
  deriving DecidableEq

/-- The part of `dtrace_state_t` that the buffers need. -/
structure TraceState where
  endian : Endian
  ecbs : List (Option Ecb)
  /-- `dts_activity == DTRACE_ACTIVITY_COOLDOWN`. -/
  cooldown : Bool
  reserve : ℕ

def dtraceEpidnone : ℕ := 0

variable (st : TraceState)

/-- `dts_ecbs[epid - 1]`, if it is an ECB. -/
def TraceState.ecbOf (epid : ℕ) : Option Ecb :=
  if epid = dtraceEpidnone then none else (st.ecbs[epid - 1]?).join

structure Reserved where
  buf : DtraceBuffer
  /-- The offset, or nothing for `-1`. -/
  offs : Option ℕ
  /-- `dtms_scratch_base` and `dtms_scratch_size`, for a caller with an `mstate`. -/
  scratch : Option (ℕ × ℕ)
  /-- Where an EPID was read, and the bytes of the buffer then. -/
  reads : List (Buf × ℕ)

/-! ## `dtrace_buffer_reserve` -/

variable (buf : DtraceBuffer)

def dtraceBufferDrop : DtraceBuffer := { buf with drops := buf.drops + 1 }

def refused : Reserved := ⟨buf, none, none, []⟩

def clear (tomax : Buf) (lo hi : ℕ) : Buf := fun x => if lo ≤ x ∧ x < hi then 0 else tomax x

/-- Padding up to a multiple of `align`, in at most `n - 1` words. -/
def plow (e : Endian) (align : ℕ) : ℕ → Buf → ℕ → Option (Buf × ℕ)
  | 0, _, _ => none
  | n + 1, tomax, offs =>
    if offs &&& (align - 1) = 0 then some (tomax, offs)
    -- `ASSERT(!((align - (offs & (align - 1))) & (sizeof (uint32_t) - 1)))`
    else if (align - (offs &&& (align - 1))) &&& 3 ≠ 0 then none
    else plow e align n (store e tomax offs 4 dtraceEpidnone) (offs + 4)

/-- The end of the function for ring and fill buffers, from `out` on. -/
def reserveOut (tomax : Buf) (offs needed align : ℕ)
    (reads : List (Buf × ℕ)) : Option Reserved := do
  let (tomax, offs) ← plow st.endian align (align + 1) tomax offs
  let buf := { buf with tomax := some tomax }
  if buf.flags.fill ∧ usub buf.size st.reserve < offs + needed then
    some ⟨{ buf with flags := { buf.flags with full := true } }, none, none, reads⟩
  else
    some ⟨buf, some offs, some (buf.xamotAddr, buf.size), reads⟩

/-- How the walk along the old records ends. -/
inductive WalkEnd where
  /-- Past the room. -/
  | stop (woffs : ℕ)
  /-- At the end of the buffer. -/
  | wrap
  deriving DecidableEq

/-- The size of a word of padding, or of a record with this EPID. -/
def entrySize (epid : ℕ) : Option ℕ :=
  if epid = dtraceEpidnone then some 4 else (st.ecbOf epid).map Ecb.size

/-- `while (offs + total > woffs)`, at most `n` times, with the offsets where an EPID is read. -/
def walkRecords (st : TraceState) (tomax : Buf) (size limit : ℕ) : ℕ → ℕ → Option (List ℕ × WalkEnd)
  | 0, _ => none
  | n + 1, woffs =>
    if limit ≤ woffs then some ([], .stop woffs)
    else do
      let len ← entrySize st (load st.endian tomax woffs 4)
      -- `ASSERT(woffs + size <= buf->dtb_size)` and `ASSERT(size != 0)`
      if size < woffs + len ∨ len = 0 then none
      else if woffs + len = size then some ([woffs], .wrap)
      else
        let (reads, last) ← walkRecords st tomax size limit n (woffs + len)
        some (woffs :: reads, last)

/-- The walk, and what it leaves as wrapped offset. -/
def makeRoom (tomax : Buf) (offs total woffs needed align : ℕ) : Option Reserved := do
  let (reads, last) ← walkRecords st tomax buf.size (offs + total) (buf.size + 1) woffs
  let reads := reads.map fun w => (tomax, w)
  match last with
  | .stop woffs => reserveOut st { buf with xamotOffset := woffs } tomax offs needed align reads
  | .wrap =>
    if offs = 0 then
      -- The buffer cannot be told from one that has not wrapped.
      reserveOut st
        { buf with flags := { buf.flags with wrapped := false }, offset := 0, xamotOffset := 0 }
        (clear tomax total buf.size) offs needed align reads
    else reserveOut st { buf with xamotOffset := 0 } tomax offs needed align reads

/-- The room that is asked for, with the padding. -/
def totalOf (needed align : ℕ) : ℕ := needed + (buf.offset &&& (align - 1))

/-- Where the walk starts if the room is at the top of the buffer. -/
def wrapStart : ℕ :=
  if buf.flags.wrapped then if buf.offset ≤ buf.xamotOffset then 0 else buf.xamotOffset else 0

def reserveRing (tomax : Buf) (needed align : ℕ) : Option Reserved :=
  let offs := buf.offset
  let total := totalOf buf needed align
  if buf.flags.wrapped ∨ buf.size < offs + total then
    if buf.size < offs + total then
      if buf.size < total then some (refused (dtraceBufferDrop buf))
      else
        makeRoom st { buf with flags := { buf.flags with wrapped := true } }
          (clear tomax offs buf.size) 0 needed (wrapStart buf) needed align
    else if buf.xamotOffset < offs then reserveOut st buf tomax offs needed align []
    else makeRoom st buf tomax offs total buf.xamotOffset needed align
  else reserveOut st buf tomax offs needed align []

/-- For a buffer that is neither a ring nor filled once. -/
def reserveSwitch (tomax : Buf) (needed align : ℕ) : Option Reserved := do
  let (tomax, offs) ← plow st.endian align (align + 1) tomax buf.offset
  let buf := { buf with tomax := some tomax }
  let soffs := offs + needed
  if buf.size < soffs then some (refused (dtraceBufferDrop buf))
  else some ⟨buf, some offs, some (uadd buf.tomaxAddr soffs, buf.size - soffs), []⟩

def dtraceBufferReserve (needed align : ℕ) : Option Reserved :=
  if buf.flags.inactive then some (refused buf)
  else
    match buf.tomax with
    | none => some (refused (dtraceBufferDrop buf))
    | some tomax =>
      if ¬ buf.flags.ring ∧ ¬ buf.flags.fill then reserveSwitch st buf tomax needed align
      else if buf.flags.fill then
        if ¬ st.cooldown ∧ buf.flags.full then some (refused buf)
        else reserveOut st buf tomax buf.offset needed align []
      else reserveRing st buf tomax needed align

/-! ## `dtrace_buffer_polish` -/

def dtraceBufferPolish : DtraceBuffer :=
  if ¬ buf.flags.wrapped then buf
  else
    { buf with tomax := buf.tomax.map fun tomax =>
        if buf.offset < buf.xamotOffset then clear tomax buf.offset buf.xamotOffset
        else if buf.xamotOffset < buf.offset then
          clear (clear tomax buf.offset buf.size) 0 buf.xamotOffset
        else tomax }

/-! ## Activations -/

/-- A probe fires for an ECB: what is stored in the room that is reserved for its record, as
offset in the record and byte, and whether the record is committed or given up. -/
structure Activation where
  epid : ℕ
  writes : List (ℕ × Byte)
  commit : Bool

/-- A buffer, and the records that have been committed to it. -/
structure Traced where
  buf : DtraceBuffer
  log : List (List Byte)

def storeAll (tomax : Buf) (offs : ℕ) (writes : List (ℕ × Byte)) : Buf :=
  writes.foldl (fun b w => Function.update b (offs + w.1) w.2) tomax

/-- The part of `dtrace_probe` between the reservation and `dtb_offset = offs + dte_size`. -/
def dtraceProbe (a : Activation) (s : Traced) : Option Traced := do
  let ecb ← st.ecbOf a.epid
  let r ← dtraceBufferReserve st s.buf ecb.needed ecb.alignment
  match r.offs with
  | none => some { s with buf := r.buf }
  | some offs =>
    let tomax ← r.buf.tomax
    let tomax := if ecb.size ≠ 0 then store st.endian tomax offs 4 a.epid else tomax
    let tomax := storeAll tomax offs a.writes
    let buf := { r.buf with tomax := some tomax }
    if a.commit then
      some ⟨{ buf with offset := offs + ecb.size },
        s.log ++ if ecb.size ≠ 0 then [bytesAt tomax offs ecb.size] else []⟩
    else some ⟨buf, s.log⟩

def ringBuffer (size tomaxAddr xamotAddr : ℕ) : DtraceBuffer where
  flags := { ring := true, fill := false, wrapped := false, full := false, inactive := false }
  tomax := some fun _ => 0
  tomaxAddr := tomaxAddr
  xamotAddr := xamotAddr
  size := size
  offset := 0
  xamotOffset := 0
  drops := 0

end Osol.TraceBuf
