import Mathlib

/-!
# The D intermediate format

Instructions of DIF are words of 32 bits: an operation and three bytes, which an operation can
also read as a wider field.
-/

namespace Osol.Dtrace

/-- A register's value. -/
abbrev Word := BitVec 64

/-! ## Fields -/

variable (i : ℕ)

def difInstrOp : ℕ := (i >>> 24) &&& 0xff

def difInstrR1 : ℕ := (i >>> 16) &&& 0xff

def difInstrR2 : ℕ := (i >>> 8) &&& 0xff

def difInstrRd : ℕ := i &&& 0xff

def difInstrRs : ℕ := i &&& 0xff

def difInstrLabel : ℕ := i &&& 0xffffff

def difInstrVar : ℕ := (i >>> 8) &&& 0xffff

def difInstrInteger : ℕ := (i >>> 8) &&& 0xffff

def difInstrString : ℕ := (i >>> 8) &&& 0xffff

def difInstrSubr : ℕ := (i >>> 8) &&& 0xffff

def difInstrType : ℕ := (i >>> 16) &&& 0xff

def difInstrFmt (op r1 r2 d : ℕ) : ℕ := (op <<< 24) ||| (r1 <<< 16) ||| (r2 <<< 8) ||| d

def difInstrLoad (op r1 d : ℕ) : ℕ := difInstrFmt op r1 0 d

/-! ## Operations -/

/-- The operations on two registers. -/
inductive AluOp where
  | or
  | xor
  | and
  | sll
  | srl
  | sub
  | add
  | mul
  | sdiv
  | udiv
  | srem
  | urem
  | sra
  deriving DecidableEq

inductive BranchOp where
  | ba
  | be
  | bne
  | bg
  | bgu
  | bge
  | bgeu
  | bl
  | blu
  | ble
  | bleu
  deriving DecidableEq

/-- The loads: signed or unsigned, with a width. -/
inductive LdKind where
  | sb
  | sh
  | sw
  | ub
  | uh
  | uw
  | x
  deriving DecidableEq

inductive StKind where
  | b
  | h
  | w
  | x
  deriving DecidableEq

inductive DifOp where
  | alu (a : AluOp)
  | not
  | mov
  | cmp
  | tst
  | branch (b : BranchOp)
  | ld (k : LdKind)
  | ret
  | nop
  | setx
  | sets
  | scmp
  | ldga
  | ldgs
  | stgs
  | ldta
  | ldts
  | stts
  | call
  | pushtr
  | pushtv
  | popts
  | flushts
  | ldgaa
  | ldtaa
  | stgaa
  | sttaa
  | ldls
  | stls
  | allocs
  | copys
  | st (k : StKind)
  /-- A load from user memory. -/
  | uld (k : LdKind)
  /-- A load that is checked. -/
  | rld (k : LdKind)
  deriving DecidableEq

/-- The operation of a number. -/
def difOp : ℕ → Option DifOp
  | 1 => some (.alu .or)
  | 2 => some (.alu .xor)
  | 3 => some (.alu .and)
  | 4 => some (.alu .sll)
  | 5 => some (.alu .srl)
  | 6 => some (.alu .sub)
  | 7 => some (.alu .add)
  | 8 => some (.alu .mul)
  | 9 => some (.alu .sdiv)
  | 10 => some (.alu .udiv)
  | 11 => some (.alu .srem)
  | 12 => some (.alu .urem)
  | 13 => some .not
  | 14 => some .mov
  | 15 => some .cmp
  | 16 => some .tst
  | 17 => some (.branch .ba)
  | 18 => some (.branch .be)
  | 19 => some (.branch .bne)
  | 20 => some (.branch .bg)
  | 21 => some (.branch .bgu)
  | 22 => some (.branch .bge)
  | 23 => some (.branch .bgeu)
  | 24 => some (.branch .bl)
  | 25 => some (.branch .blu)
  | 26 => some (.branch .ble)
  | 27 => some (.branch .bleu)
  | 28 => some (.ld .sb)
  | 29 => some (.ld .sh)
  | 30 => some (.ld .sw)
  | 31 => some (.ld .ub)
  | 32 => some (.ld .uh)
  | 33 => some (.ld .uw)
  | 34 => some (.ld .x)
  | 35 => some .ret
  | 36 => some .nop
  | 37 => some .setx
  | 38 => some .sets
  | 39 => some .scmp
  | 40 => some .ldga
  | 41 => some .ldgs
  | 42 => some .stgs
  | 43 => some .ldta
  | 44 => some .ldts
  | 45 => some .stts
  | 46 => some (.alu .sra)
  | 47 => some .call
  | 48 => some .pushtr
  | 49 => some .pushtv
  | 50 => some .popts
  | 51 => some .flushts
  | 52 => some .ldgaa
  | 53 => some .ldtaa
  | 54 => some .stgaa
  | 55 => some .sttaa
  | 56 => some .ldls
  | 57 => some .stls
  | 58 => some .allocs
  | 59 => some .copys
  | 60 => some (.st .b)
  | 61 => some (.st .h)
  | 62 => some (.st .w)
  | 63 => some (.st .x)
  | 64 => some (.uld .sb)
  | 65 => some (.uld .sh)
  | 66 => some (.uld .sw)
  | 67 => some (.uld .ub)
  | 68 => some (.uld .uh)
  | 69 => some (.uld .uw)
  | 70 => some (.uld .x)
  | 71 => some (.rld .sb)
  | 72 => some (.rld .sh)
  | 73 => some (.rld .sw)
  | 74 => some (.rld .ub)
  | 75 => some (.rld .uh)
  | 76 => some (.rld .uw)
  | 77 => some (.rld .x)
  | _ => none

/-! ## Limits -/

def difDirNregs : ℕ := 8

def difDtrNregs : ℕ := 8

def difVarArrayMax : ℕ := 0xff

def difVarOtherMin : ℕ := 0x100

def difVarOtherUbase : ℕ := 0x500

def difVarOtherMax : ℕ := 0xffff

def difVariableMax : ℕ := 0xffff

def difSubrCopyout : ℕ := 13

def difSubrCopyoutstr : ℕ := 14

def difSubrMax : ℕ := 43

def difTypeCtf : ℕ := 0

def difTypeString : ℕ := 1

/-! ## Objects -/

/-- `dtrace_diftype_t`. -/
structure DifType where
  /-- `dtdt_flags & DIF_TF_BYREF`, and the other flags. -/
  flags : ℕ
  size : ℕ
  deriving DecidableEq

def DifType.byRef (t : DifType) : Bool := t.flags &&& 1 != 0

/-- `dtrace_difv_t`. -/
structure DifVar where
  id : ℕ
  kind : ℕ
  scope : ℕ
  type : DifType
  deriving DecidableEq

structure Difo where
  /-- `dtdo_buf`, with its length. -/
  buf : List ℕ
  inttab : List Word
  /-- The address of the string table. -/
  strtab : Word
  strlen : ℕ
  vartab : List DifVar
  rtype : DifType
  destructive : Bool

end Osol.Dtrace
