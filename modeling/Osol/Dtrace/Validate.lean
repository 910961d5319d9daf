import Osol.Dtrace.Dif

/-!
# `dtrace_difo_validate`

One pass over the instructions, which makes the loads of an unprivileged object checked ones,
and one over the variables. It counts the errors; here it lists them.
-/

namespace Osol.Dtrace

/-- The messages of `efunc`. -/
inductive DifoMsg where
  | invalidRegister (r : ℕ)
  | cannotWriteR0
  | nonZeroReservedBits
  | cannotWriteZeroAddress
  | invalidBranchTarget (label : ℕ)
  | backwardBranch (label : ℕ)
  | invalidIntegerRef (n : ℕ)
  | invalidStringRef (n : ℕ)
  | invalidArray (n : ℕ)
  | invalidVariable (v : ℕ)
  | invalidSubr (n : ℕ)
  | invalidRefType (t : ℕ)
  | invalidValType (t : ℕ)
  | invalidOpcode (op : ℕ)
  | expectedRet
  | badReturnSize
  | unrecognizedScope (n : ℕ)
  | unrecognizedType (n : ℕ)
  | exceedsIdLimit (id : ℕ)
  | zeroSizedVariable
  | oversizedByRefGlobal
  | changedKind (id : ℕ)
  | changedTypeFlags (id : ℕ)
  | changedTypeSize (id : ℕ)
  deriving DecidableEq

/-- A message with the place it is about. -/
structure DifoErr where
  pc : ℕ
  msg : DifoMsg
  deriving DecidableEq

def errIf (c : Prop) [Decidable c] (pc : ℕ) (msg : DifoMsg) : List DifoErr :=
  if c then [⟨pc, msg⟩] else []

def checkReg (nregs pc r : ℕ) : List DifoErr := errIf (nregs ≤ r) pc (.invalidRegister r)

/-- A register that is written. -/
def checkRd (nregs pc rd : ℕ) : List DifoErr :=
  checkReg nregs pc rd ++ errIf (rd = 0) pc .cannotWriteR0

def checkLoad (nregs pc r1 r2 rd : ℕ) : List DifoErr :=
  checkReg nregs pc r1 ++ errIf (r2 ≠ 0) pc .nonZeroReservedBits ++ checkRd nregs pc rd

def checkInstr (dp : Difo) (nregs pc instr : ℕ) : List DifoErr :=
  let r1 := difInstrR1 instr
  let r2 := difInstrR2 instr
  let rd := difInstrRd instr
  let rs := difInstrRs instr
  let label := difInstrLabel instr
  let v := difInstrVar instr
  let subr := difInstrSubr instr
  let type := difInstrType instr
  match difOp (difInstrOp instr) with
  | some (.alu _) | some .copys =>
    checkReg nregs pc r1 ++ checkReg nregs pc r2 ++ checkRd nregs pc rd
  | some .not | some .mov | some .allocs => checkLoad nregs pc r1 r2 rd
  | some (.ld _) => checkLoad nregs pc r1 r2 rd
  | some (.rld _) => checkLoad nregs pc r1 r2 rd
  | some (.uld _) => checkLoad nregs pc r1 r2 rd
  | some (.st _) =>
    checkReg nregs pc r1 ++ errIf (r2 ≠ 0) pc .nonZeroReservedBits ++ checkReg nregs pc rd ++
      errIf (rd = 0) pc .cannotWriteZeroAddress
  | some .cmp | some .scmp =>
    checkReg nregs pc r1 ++ checkReg nregs pc r2 ++ errIf (rd ≠ 0) pc .nonZeroReservedBits
  | some .tst => checkReg nregs pc r1 ++ errIf (r2 ≠ 0 ∨ rd ≠ 0) pc .nonZeroReservedBits
  | some (.branch _) =>
    errIf (dp.buf.length ≤ label) pc (.invalidBranchTarget label) ++
      errIf (label ≤ pc) pc (.backwardBranch label)
  | some .ret => errIf (r1 ≠ 0 ∨ r2 ≠ 0) pc .nonZeroReservedBits ++ checkReg nregs pc rd
  | some .nop | some .popts | some .flushts =>
    errIf (r1 ≠ 0 ∨ r2 ≠ 0 ∨ rd ≠ 0) pc .nonZeroReservedBits
  | some .setx =>
    errIf (dp.inttab.length ≤ difInstrInteger instr) pc
      (.invalidIntegerRef (difInstrInteger instr)) ++ checkRd nregs pc rd
  | some .sets =>
    errIf (dp.strlen ≤ difInstrString instr) pc (.invalidStringRef (difInstrString instr)) ++
      checkRd nregs pc rd
  | some .ldga | some .ldta =>
    errIf (difVarArrayMax < r1) pc (.invalidArray r1) ++ checkReg nregs pc r2 ++
      checkRd nregs pc rd
  | some .ldgs | some .ldts | some .ldls | some .ldgaa | some .ldtaa =>
    errIf (v < difVarOtherMin ∨ difVarOtherMax < v) pc (.invalidVariable v) ++ checkRd nregs pc rd
  | some .stgs | some .stts | some .stls | some .stgaa | some .sttaa =>
    errIf (v < difVarOtherUbase ∨ difVarOtherMax < v) pc (.invalidVariable v) ++
      errIf (nregs ≤ rs) pc (.invalidRegister rd)
  | some .call => errIf (difSubrMax < subr) pc (.invalidSubr subr) ++ checkRd nregs pc rd
  | some .pushtr =>
    errIf (type ≠ difTypeString ∧ type ≠ difTypeCtf) pc (.invalidRefType type) ++
      checkReg nregs pc r2 ++ checkReg nregs pc rs
  | some .pushtv =>
    errIf (type ≠ difTypeCtf) pc (.invalidValType type) ++ checkReg nregs pc r2 ++
      checkReg nregs pc rs
  | none => [⟨pc, .invalidOpcode (difInstrOp instr)⟩]

def rewriteInstr (kcheckload : Bool) (instr : ℕ) : ℕ :=
  match difOp (difInstrOp instr) with
  | some (.ld _) =>
    if kcheckload then
      difInstrLoad (difInstrOp instr + 71 - 28) (difInstrR1 instr) (difInstrRd instr)
    else instr
  | _ => instr

/-- The instruction calls a subroutine that writes to a process. -/
def isDestructive (instr : ℕ) : Bool :=
  difOp (difInstrOp instr) = some .call &&
    (difInstrSubr instr = difSubrCopyout || difInstrSubr instr = difSubrCopyoutstr)

/-- The loop over the instructions from `pc` on, `n` of them, as long as there is no error. -/
def validateInstrs (nregs : ℕ) (kcheckload : Bool) : ℕ → ℕ → Difo → List DifoErr × Difo
  | 0, _, dp => ([], dp)
  | n + 1, pc, dp =>
    let instr := dp.buf.getD pc 0
    let err := checkInstr dp nregs pc instr
    let dp := { dp with
      buf := dp.buf.set pc (rewriteInstr kcheckload instr)
      destructive := dp.destructive || isDestructive instr }
    if err = [] then validateInstrs nregs kcheckload n (pc + 1) dp else (err, dp)

/-- The variables there are already, as far as the validation looks at them. -/
structure VarState where
  globals : List (Option DifVar)
  tlocals : List DifVar
  locals : List (Option DifVar)
  /-- `dtrace_global_maxsize`. -/
  globalMaxsize : ℕ

/-- The definition of a variable that is there already. -/
def VarState.existing (vs : VarState) (scope ndx : ℕ) : Option DifVar :=
  match scope with
  | 0 => (vs.globals[ndx]?).join
  | 1 => vs.tlocals[ndx]?
  | 2 => (vs.locals[ndx]?).join
  | _ => none

/-- The body of the loop over the variables. -/
def checkVar (vs : VarState) (i : ℕ) (v : DifVar) : List DifoErr :=
  if v.scope ≠ 0 ∧ v.scope ≠ 1 ∧ v.scope ≠ 2 then [⟨i, .unrecognizedScope v.scope⟩]
  else if v.kind ≠ 0 ∧ v.kind ≠ 1 then [⟨i, .unrecognizedType v.kind⟩]
  else if difVariableMax < v.id then [⟨i, .exceedsIdLimit v.id⟩]
  else if v.id < difVarOtherUbase then []
  else if v.type.byRef ∧ v.type.size = 0 then [⟨i, .zeroSizedVariable⟩]
  else if v.type.byRef ∧ v.scope = 0 ∧ vs.globalMaxsize < v.type.size then
    [⟨i, .oversizedByRefGlobal⟩]
  else
    match vs.existing v.scope (v.id - difVarOtherUbase) with
    | none => []
    | some existing =>
      if existing.id = 0 then []
      else
        errIf (existing.kind ≠ v.kind) i (.changedKind v.id) ++
          if v.type.flags ≠ existing.type.flags then [⟨i, .changedTypeFlags v.id⟩]
          else errIf (v.type.size ≠ 0 ∧ v.type.size ≠ existing.type.size) i (.changedTypeSize v.id)

/-- The loop over the variables. -/
def validateVars (vs : VarState) : ℕ → List DifVar → List DifoErr
  | _, [] => []
  | i, v :: vars =>
    let err := checkVar vs i v
    if err = [] then validateVars vs (i + 1) vars else err

/-- What the last instruction and the return type have to be; `dtdo_len - 1` is a `uint_t`. -/
def checkEnd (dp : Difo) : List DifoErr :=
  let last := (dp.buf.length + (2 ^ 32 - 1)) % 2 ^ 32
  errIf (dp.buf.length ≠ 0 ∧
      difOp (difInstrOp (dp.buf.getD (dp.buf.length - 1) 0)) ≠ some .ret) last .expectedRet ++
  errIf (¬ dp.rtype.byRef ∧ dp.rtype.size ∉ [0, 1, 2, 4, 8]) last .badReturnSize

/-- `dtrace_difo_validate`: the errors, and the object as it is left. -/
def dtraceDifoValidate (dp : Difo) (vs : VarState) (nregs : ℕ) (kcheckload : Bool) :
    List DifoErr × Difo :=
  let (err, dp) := validateInstrs nregs kcheckload dp.buf.length 0 { dp with destructive := false }
  let err := err ++ checkEnd dp
  (if err = [] then validateVars vs 0 dp.vartab else err, dp)

end Osol.Dtrace
