import Osol.Dtrace.Dif
import Osol.Lib.Total

/-!
# `dtrace_dif_emulate`

The emulator, instruction by instruction. It makes no checks of its own: an index into the
registers, the tuple stack or the tables of the object that is outside is `none` here. What
other functions of DTrace do to memory and to the variables is left open (`Ext`); they can
raise a fault like the emulator.
-/

namespace Osol.Dtrace

open Osol.Lib

/-! ## The machine -/

structure Key where
  value : Word
  size : Word
  deriving DecidableEq

/-- The state outside of the emulator's variables. -/
structure Cpu (W : Type) where
  /-- `cpuc_dtrace_flags`. -/
  flags : BitVec 16
  illval : Word
  scratchBase : Word
  scratchSize : Word
  scratchPtr : Word
  /-- Memory, the variables and the rest. -/
  world : W

def flagBadaddr : BitVec 16 := 0x0004
def flagBadalign : BitVec 16 := 0x0008
def flagDivzero : BitVec 16 := 0x0010
def flagIllop : BitVec 16 := 0x0020
def flagNoscratch : BitVec 16 := 0x0040
def flagKpriv : BitVec 16 := 0x0080
def flagUpriv : BitVec 16 := 0x0100
def flagTupoflow : BitVec 16 := 0x0200
def flagBadstack : BitVec 16 := 0x1000

/-- `CPU_DTRACE_FAULT`. -/
def faultFlags : BitVec 16 :=
  flagBadaddr ||| flagBadalign ||| flagDivzero ||| flagIllop ||| flagNoscratch ||| flagKpriv |||
    flagUpriv ||| flagTupoflow ||| flagBadstack

def Cpu.fault {W : Type} (c : Cpu W) : Bool := c.flags &&& faultFlags != 0

/-- The variables of `dtrace_dif_emulate`. -/
structure Machine (W : Type) where
  regs : List Word
  tupregs : List Key
  ccN : Bool
  ccZ : Bool
  ccV : Bool
  ccC : Bool
  pc : ℕ
  ttop : ℕ
  rval : Word
  cpu : Cpu W
  /-- The machine has trapped. -/
  trapped : Bool

/-- The functions the emulator calls. -/
structure Ext (W : Type) where
  /-- `dtrace_load8` to `dtrace_load64`, by the number of bytes. -/
  load : ℕ → Word → Cpu W → Word × Cpu W
  /-- `dtrace_fuword8` to `dtrace_fuword64`. -/
  fuword : ℕ → Word → Cpu W → Word × Cpu W
  /-- The store of so many bytes. -/
  store : ℕ → Word → Word → Cpu W → Cpu W
  canstore : Word → Word → Cpu W → Bool
  canload : Word → Word → Cpu W → Bool × Cpu W
  strcanload : Word → Cpu W → Bool × Cpu W
  /-- `dtrace_strncmp` with the `strsize` option. -/
  strncmp : Word → Word → Cpu W → Word × Cpu W
  strlen : Word → Word → Cpu W → Word × Cpu W
  strsizeDefault : Word
  bcopy : Word → Word → Word → Cpu W → Cpu W
  bzero : Word → Word → Cpu W → Cpu W
  /-- `dtrace_dif_variable`. -/
  difVariable : ℕ → Word → Cpu W → Word × Cpu W
  /-- `dtrace_dif_subr`: it writes the destination register, whose value it gets, or none. -/
  difSubr : ℕ → Word → List Key → ℕ → Cpu W → Option Word × Cpu W
  /-- The value of a user-defined global, or its place. -/
  ldGlobal : ℕ → Cpu W → Word × Cpu W
  stGlobal : ℕ → Word → Cpu W → Cpu W
  ldLocal : ℕ → Cpu W → Word × Cpu W
  stLocal : ℕ → Word → Cpu W → Cpu W
  /-- `DTRACE_TLS_THRKEY`. -/
  tlsThrkey : Cpu W → Word
  /-- The variable that `dtrace_dynvar` finds for the keys, or zero. The flag is for one of
  the thread. -/
  ldDynvar : Bool → ℕ → List Key → Cpu W → Word × Cpu W
  stDynvar : Bool → ℕ → List Key → Word → Cpu W → Cpu W

/-! ## Accesses -/

/-- A computation of the emulator. -/
abbrev Emul (W : Type) := StateT (Machine W) Option

section Access

variable {W : Type}

def getReg (r : ℕ) : Emul W Word := fun m => (m.regs[r]?).map fun v => (v, m)

def setReg (r : ℕ) (v : Word) : Emul W Unit := fun m =>
  if r < m.regs.length then some ((), { m with regs := m.regs.set r v }) else none

def setTup (i : ℕ) (k : Key) : Emul W Unit := fun m =>
  if i < m.tupregs.length then some ((), { m with tupregs := m.tupregs.set i k }) else none

def getTtop : Emul W ℕ := fun m => some (m.ttop, m)

def setTtop (n : ℕ) : Emul W Unit := fun m => some ((), { m with ttop := n })

def getTupregs : Emul W (List Key) := fun m => some (m.tupregs, m)

def setPc (pc : ℕ) : Emul W Unit := fun m => some ((), { m with pc := pc })

def setRval (v : Word) : Emul W Unit := fun m => some ((), { m with rval := v })

def trap : Emul W Unit := fun m => some ((), { m with trapped := true })

def setCc (n z v c : Bool) : Emul W Unit := fun m =>
  some ((), { m with ccN := n, ccZ := z, ccV := v, ccC := c })

def getCc : Emul W (Bool × Bool × Bool × Bool) := fun m =>
  some ((m.ccN, m.ccZ, m.ccV, m.ccC), m)

def look {α : Type} (f : Cpu W → α) : Emul W α := fun m => some (f m.cpu, m)

def call {α : Type} (f : Cpu W → α × Cpu W) : Emul W α := fun m =>
  some ((f m.cpu).1, { m with cpu := (f m.cpu).2 })

/-- A call for its effect. -/
def run (f : Cpu W → Cpu W) : Emul W Unit := fun m => some ((), { m with cpu := f m.cpu })

def setFlag (flag : BitVec 16) : Emul W Unit := run fun c => { c with flags := c.flags ||| flag }

def badAccess (flag : BitVec 16) (v : Word) : Emul W Unit :=
  run fun c => { c with flags := c.flags ||| flag, illval := v }

/-- An entry of the integer table. -/
def getInt (difo : Difo) (i : ℕ) : Emul W Word := fun m => (difo.inttab[i]?).map fun v => (v, m)

/-- The address of a string of the string table. -/
def getStr (difo : Difo) (i : ℕ) : Emul W Word := fun m =>
  if i < difo.strlen then some (difo.strtab + BitVec.ofNat 64 i, m) else none

end Access

/-! ## Instructions -/

/-- A signed division, which is guarded against zero only: the quotient of `INT64_MIN` and -1 does
not fit, and the machine traps. -/
def signedDiv (div : Word → Word → Word) (x y : Word) : Option (Word × BitVec 16) :=
  if y = 0 then some (0, flagDivzero)
  else if x = BitVec.intMin 64 ∧ y = -1 then none
  else some (div x y, 0)

/-- The result of an operation, and the flag it sets. The count of a shift is taken modulo
64, as the machines do. -/
def alu (a : AluOp) (x y : Word) : Option (Word × BitVec 16) :=
  match a with
  | .or => some (x ||| y, 0)
  | .xor => some (x ^^^ y, 0)
  | .and => some (x &&& y, 0)
  | .sll => some (x <<< (y.toNat % 64), 0)
  | .srl => some (x >>> (y.toNat % 64), 0)
  | .sra => some (x.sshiftRight (y.toNat % 64), 0)
  | .sub => some (x - y, 0)
  | .add => some (x + y, 0)
  | .mul => some (x * y, 0)
  | .sdiv => signedDiv BitVec.sdiv x y
  | .udiv => some (if y = 0 then (0, flagDivzero) else (x / y, 0))
  | .srem => signedDiv BitVec.srem x y
  | .urem => some (if y = 0 then (0, flagDivzero) else (x % y, 0))

def taken (b : BranchOp) (n z v c : Bool) : Bool :=
  match b with
  | .ba => true
  | .be => z
  | .bne => !z
  | .bg => !(z || (n ^^ v))
  | .bgu => !(c || z)
  | .bge => !(n ^^ v)
  | .bgeu => !c
  | .bl => n ^^ v
  | .blu => c
  | .ble => z || (n ^^ v)
  | .bleu => c || z

def LdKind.bytes : LdKind → ℕ
  | .sb | .ub => 1
  | .sh | .uh => 2
  | .sw | .uw => 4
  | .x => 8

/-- The value of a load in a register. -/
def LdKind.extend (k : LdKind) (v : Word) : Word :=
  match k with
  | .sb => (v.setWidth 8).signExtend 64
  | .sh => (v.setWidth 16).signExtend 64
  | .sw => (v.setWidth 32).signExtend 64
  | .ub => (v.setWidth 8).setWidth 64
  | .uh => (v.setWidth 16).setWidth 64
  | .uw => (v.setWidth 32).setWidth 64
  | .x => v

def StKind.bytes : StKind → ℕ
  | .b => 1
  | .h => 2
  | .w => 4
  | .x => 8

section Exec

variable {W : Type} (E : Ext W) (difo : Difo)

def execAlu (a : AluOp) (r1 r2 rd : ℕ) : Emul W Unit := do
  let x ← getReg r1
  let y ← getReg r2
  match alu a x y with
  | some (v, flag) => do
    setReg rd v
    setFlag flag
  | none => trap

def execLd (k : LdKind) (r1 rd : ℕ) : Emul W Unit := do
  let v ← call (E.load k.bytes (← getReg r1))
  setReg rd (k.extend v)

/-- A load that is checked first. -/
def execRld (k : LdKind) (r1 rd : ℕ) : Emul W Unit := do
  let a ← getReg r1
  if ← look (E.canstore a (BitVec.ofNat 64 k.bytes)) then execLd E k r1 rd
  else badAccess flagKpriv a

def execUld (k : LdKind) (r1 rd : ℕ) : Emul W Unit := do
  let v ← call (E.fuword k.bytes (← getReg r1))
  setReg rd (k.extend v)

def execSt (k : StKind) (r1 rd : ℕ) : Emul W Unit := do
  let a ← getReg rd
  if ← look (E.canstore a (BitVec.ofNat 64 k.bytes)) then
    if a &&& BitVec.ofNat 64 (k.bytes - 1) ≠ 0 then badAccess flagBadalign a
    else
      let v ← getReg r1
      run (E.store k.bytes a v)
  else badAccess flagBadaddr a

/-- `s == NULL || dtrace_strcanload(s, ...)`. -/
def strOk (s : Word) : Emul W Bool := if s = 0 then pure true else call (E.strcanload s)

def execScmp (r1 r2 : ℕ) : Emul W Unit := do
  let s1 ← getReg r1
  let s2 ← getReg r2
  if ← strOk E s1 then
    if ← strOk E s2 then
      let r ← call (E.strncmp s1 s2)
      setCc r.msb (r == 0) false false
    else pure ()
  else pure ()

/-- The keys of a thread-local scalar stand at the end of the tuple stack. -/
def tlsKeys (id : ℕ) : Emul W (List Key) := do
  setTup difDtrNregs ⟨BitVec.ofNat 64 id, 0⟩
  setTup (difDtrNregs + 1) ⟨← look E.tlsThrkey, 0⟩
  return (← getTupregs).drop difDtrNregs

/-- The keys of an associative array: the tuple, the variable and, if it is one of the
thread, the thread. -/
def arrayKeys (tlocal : Bool) (id : ℕ) : Emul W (List Key) := do
  let nkeys ← getTtop
  setTup nkeys ⟨BitVec.ofNat 64 id, 0⟩
  if tlocal then
    setTup (nkeys + 1) ⟨← look E.tlsThrkey, 0⟩
    return (← getTupregs).take (nkeys + 2)
  else return (← getTupregs).take (nkeys + 1)

/-- The number of a user-defined variable; `id` is a `uint_t`. -/
def userVar (v : ℕ) : ℕ := (v + 2 ^ 32 - difVarOtherUbase) % 2 ^ 32

def keySize (type : ℕ) (v n : Word) : Emul W Word :=
  if type = difTypeString then do
    return (← call (E.strlen v (if n ≠ 0 then n else E.strsizeDefault))) + 1
  else pure n

def execPushtr (r1 r2 rd : ℕ) : Emul W Unit := do
  let ttop ← getTtop
  if ttop = difDtrNregs then setFlag flagTupoflow
  else
    let v ← getReg rd
    setTup ttop ⟨v, ← keySize E r1 v (← getReg r2)⟩
    setTtop (ttop + 1)

def execPushtv (rd : ℕ) : Emul W Unit := do
  let ttop ← getTtop
  if ttop = difDtrNregs then setFlag flagTupoflow
  else
    setTup ttop ⟨← getReg rd, 0⟩
    setTtop (ttop + 1)

/-- `P2ROUNDUP(p, 8)`. -/
def roundup8 (p : Word) : Word := -(-p &&& -8)

def execAllocs (r1 rd : ℕ) : Emul W Unit := do
  let n ← getReg r1
  let sp ← look Cpu.scratchPtr
  let ptr := roundup8 sp
  let size := ptr - sp + n
  let room ← look fun c => c.scratchBase + c.scratchSize - c.scratchPtr
  if size < n ∨ room < size then
    setFlag flagNoscratch
    setReg rd 0
  else
    run (E.bzero sp size)
    run fun c => { c with scratchPtr := c.scratchPtr + size }
    setReg rd ptr

def execCopys (r1 r2 rd : ℕ) : Emul W Unit := do
  let dst ← getReg rd
  let n ← getReg r2
  if ← look (E.canstore dst n) then
    let src ← getReg r1
    if ← call (E.canload src n) then run (E.bcopy src dst n) else pure ()
  else badAccess flagBadaddr dst

/-- The body of the loop: the `switch` on the operation. -/
def exec (op : DifOp) (instr : ℕ) : Emul W Unit :=
  let r1 := difInstrR1 instr
  let r2 := difInstrR2 instr
  let rd := difInstrRd instr
  match op with
  | .alu a => execAlu a r1 r2 rd
  | .not => do setReg rd (~~~ (← getReg r1))
  | .mov => do setReg rd (← getReg r1)
  | .cmp => do
    let x ← getReg r1
    let y ← getReg r2
    setCc (x - y).msb (x - y == 0) false (x < y)
  | .tst => do
    let x ← getReg r1
    setCc false (x == 0) false false
  | .branch b => do
    let (n, z, v, c) ← getCc
    if taken b n z v c then setPc (difInstrLabel instr) else pure ()
  | .ld k => execLd E k r1 rd
  | .rld k => execRld E k r1 rd
  | .uld k => execUld E k r1 rd
  | .ret => do
    setRval (← getReg rd)
    setPc difo.buf.length
  | .nop => pure ()
  | .setx => do setReg rd (← getInt difo (difInstrInteger instr))
  | .sets => do setReg rd (← getStr difo (difInstrString instr))
  | .scmp => execScmp E r1 r2
  | .ldga => do setReg rd (← call (E.difVariable r1 (← getReg r2)))
  | .ldgs =>
    let id := difInstrVar instr
    if difVarOtherUbase ≤ id then do setReg rd (← call (E.ldGlobal (userVar id)))
    else do setReg rd (← call (E.difVariable id 0))
  | .stgs => do run (E.stGlobal (userVar (difInstrVar instr)) (← getReg rd))
  | .ldta => do
    setFlag flagIllop
    setReg rd 0
  | .ldls =>
    let id := difInstrVar instr
    if id < difVarOtherUbase then setReg rd 0
    else do setReg rd (← call (E.ldLocal (userVar id)))
  | .stls => do run (E.stLocal (userVar (difInstrVar instr)) (← getReg rd))
  | .ldts => do
    let id := userVar (difInstrVar instr)
    setReg rd (← call (E.ldDynvar true id (← tlsKeys E id)))
  | .stts => do
    let id := userVar (difInstrVar instr)
    let keys ← tlsKeys E id
    run (E.stDynvar true id keys (← getReg rd))
  | .call => do
    let old ← getReg rd
    let args ← getTupregs
    match ← call (E.difSubr (difInstrSubr instr) old args (← getTtop)) with
    | some v => setReg rd v
    | none => pure ()
  | .pushtr => execPushtr E r1 r2 rd
  | .pushtv => execPushtv rd
  | .popts => do
    let ttop ← getTtop
    if ttop ≠ 0 then setTtop (ttop - 1) else pure ()
  | .flushts => setTtop 0
  | .ldgaa => do
    let id := userVar (difInstrVar instr)
    setReg rd (← call (E.ldDynvar false id (← arrayKeys E false id)))
  | .ldtaa => do
    let id := userVar (difInstrVar instr)
    setReg rd (← call (E.ldDynvar true id (← arrayKeys E true id)))
  | .stgaa => do
    let id := userVar (difInstrVar instr)
    let keys ← arrayKeys E false id
    run (E.stDynvar false id keys (← getReg rd))
  | .sttaa => do
    let id := userVar (difInstrVar instr)
    let keys ← arrayKeys E true id
    run (E.stDynvar true id keys (← getReg rd))
  | .allocs => execAllocs E r1 rd
  | .copys => execCopys E r1 r2 rd
  | .st k => execSt E k r1 rd

/-- One turn of the loop: the fetch, and the instruction. -/
def step : Emul W Unit := fun m =>
  match difo.buf[m.pc]? with
  | none => none
  | some instr =>
    match difOp (difInstrOp instr) with
    | none => some ((), { m with pc := m.pc + 1 })
    | some op => exec E difo op instr { m with pc := m.pc + 1 }

/-- `while (pc < textlen && !(*flags & CPU_DTRACE_FAULT))`, at most `n` times and until a trap. The
states in which an instruction was fetched come with the last one. -/
def loop : ℕ → Machine W → Option (List (Machine W) × Machine W)
  | 0, m => if m.pc < difo.buf.length ∧ !m.cpu.fault ∧ !m.trapped then none else some ([], m)
  | n + 1, m =>
    if m.pc < difo.buf.length ∧ !m.cpu.fault ∧ !m.trapped then do
      let (_, m') ← step E difo m
      let (ms, last) ← loop n m'
      return (m :: ms, last)
    else some ([], m)

/-- The state the loop starts in: only `%r0` is set. -/
def initial (regs : List Word) (tupregs : List Key) (cpu : Cpu W) : Machine W :=
  { regs := regs.set 0 0
    tupregs := tupregs
    ccN := false
    ccZ := false
    ccV := false
    ccC := false
    pc := 0
    ttop := 0
    rval := 0
    cpu := cpu
    trapped := false }

/-- `dtrace_dif_emulate`, as far as its loop: `regs` and `tupregs` are on the stack and hold
anything. -/
def dtraceDifEmulate (regs : List Word) (tupregs : List Key) (cpu : Cpu W) :
    Option (List (Machine W) × Machine W) :=
  loop E difo difo.buf.length (initial regs tupregs cpu)

end Exec

end Osol.Dtrace
