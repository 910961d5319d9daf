import Osol.Dtrace.Safety
import Osol.Lib.Grow

/-!
# The variables of a consumer

`dtrace_difo_init` makes room for the variables that the table of an object lists. The
instructions name variables by number, and nothing compares the two: neither
`dtrace_difo_validate`, which looks at the instructions and at the table one after the other,
nor the emulator, which asserts that the variable is there.
-/

namespace Osol.Dtrace

open Osol.Lib Function List Option Nat

/-! ## The variable state -/

/-- `dtrace_statvar_t`. -/
structure StatVar where
  /-- The value, or the address of the place for it. -/
  data : Word
  size : ℕ
  refcnt : ℕ
  var : DifVar
  deriving DecidableEq

/-- `dtrace_vstate_t`, with the chunk size of its dynamic variables. -/
structure VState where
  globals : List (Option StatVar)
  tlocals : List DifVar
  locals : List (Option StatVar)
  chunksize : ℕ
  deriving DecidableEq

/-- The definitions, which is what the validation looks at. -/
def VState.defs (vs : VState) (globalMaxsize : ℕ) : VarState where
  globals := vs.globals.map fun svar => svar.map StatVar.var
  tlocals := vs.tlocals
  locals := vs.locals.map fun svar => svar.map StatVar.var
  globalMaxsize := globalMaxsize

/-- The numbers of variables are of type `int`. -/
structure VState.Fits (vs : VState) : Prop where
  globals : vs.globals.length < 2 ^ 31
  tlocals : vs.tlocals.length < 2 ^ 31
  locals : vs.locals.length < 2 ^ 31

/-- The variable exists: its number is one of the array's, and there is a static variable. -/
def VState.Has (vs : VState) (scope ndx : ℕ) : Prop :=
  match scope with
  | 0 => ∃ svar, vs.globals[ndx]? = some (some svar)
  | 1 => ndx < vs.tlocals.length
  | 2 => ∃ svar, vs.locals[ndx]? = some (some svar)
  | _ => False

/-! ## `dtrace_difo_chunksize` -/

/-- The variables of the scan, of the keys only the sizes. -/
structure ChunkScan where
  sval : Word
  srd : ℕ
  ttop : ℕ
  keySizes : ℕ → Word
  chunksize : ℕ

variable (dp : Difo)

/-- The size of a chunk for `nkeys` keys from `key` on and the variable `id`, if the object
lists the variable. -/
def chunkFor (keySizes : ℕ → Word) (key nkeys id scope : ℕ) : Option ℕ :=
  let ksize := ((range nkeys).map fun i => roundup8 (keySizes (key + i))).sum
  let size := BitVec.ofNat 64 (48 + 16 * (nkeys - 1)) + ksize
  (dp.vartab.find? fun v => v.id = id ∧ v.scope = scope).map fun v =>
    (roundup8 (size + BitVec.ofNat 64 v.type.size)).toNat

/-- An instruction that can allocate a dynamic variable. -/
def scanAlloc (s : ChunkScan) (key nkeys id scope : ℕ) : Option ChunkScan :=
  (chunkFor dp s.keySizes key nkeys id scope).map fun size =>
    { s with sval := 0, srd := 0, chunksize := max size s.chunksize }

/-- One instruction; `none` where the function returns. -/
def scanInstr (strsizeDefault : Word) (instr : ℕ) (s : ChunkScan) : Option ChunkScan :=
  let id := difInstrVar instr
  match difOp (difInstrOp instr) with
  | some .setx => some { s with
      sval := dp.inttab.getD (difInstrInteger instr) 0, srd := difInstrRd instr }
  | some .stts =>
    scanAlloc dp { s with keySizes := fun i => if difDtrNregs ≤ i then 0 else s.keySizes i }
      difDtrNregs 2 id 1
  | some .stgaa =>
    scanAlloc dp { s with keySizes := update s.keySizes s.ttop 0 } 0 (s.ttop + 1) id 0
  | some .sttaa =>
    scanAlloc dp { s with
      keySizes := update (update s.keySizes s.ttop 0) (s.ttop + 1) 0 }
      0 (s.ttop + 2) id 1
  | some .pushtr =>
    if s.ttop = difDtrNregs then none
    else if (s.srd = 0 ∨ s.sval = 0) ∧ difInstrR1 instr = difTypeString then
      some { s with
        sval := 0, srd := 0, ttop := s.ttop + 1
        keySizes := update s.keySizes s.ttop strsizeDefault }
    else if s.srd = 0 then none
    else some { s with
      sval := 0, srd := 0, ttop := s.ttop + 1
      keySizes := update s.keySizes s.ttop s.sval }
  | some .pushtv =>
    if s.ttop = difDtrNregs then none
    else some { s with
      sval := 0, srd := 0, ttop := s.ttop + 1, keySizes := update s.keySizes s.ttop 0 }
  | some .flushts => some { s with sval := 0, srd := 0, ttop := 0 }
  | some .popts => some { s with sval := 0, srd := 0, ttop := s.ttop - 1 }
  | _ => some { s with sval := 0, srd := 0 }

def scanInstrs (dp : Difo) (strsizeDefault : Word) : List ℕ → ChunkScan → ChunkScan
  | [], s => s
  | instr :: text, s =>
    match scanInstr dp strsizeDefault instr s with
    | none => s
    | some s' => scanInstrs dp strsizeDefault text s'

def dtraceDifoChunksize (strsizeDefault : Word) (vs : VState) : VState :=
  { vs with
    chunksize := (scanInstrs dp strsizeDefault dp.buf ⟨0, 0, 0, fun _ => 0, vs.chunksize⟩).chunksize }

/-! ## `dtrace_difo_init` -/

/-- What the kernel provides: the number of CPUs, the memory for the `i`th variable of an
object, and the default size of a string. -/
structure Kernel where
  ncpu : ℕ
  zalloc : ℕ → Word
  strsizeDefault : Word

/-- The bytes of a local variable on all CPUs. -/
def localSize (k : Kernel) (t : DifType) : ℕ := if t.byRef then k.ncpu * (t.size + 8) else k.ncpu * 8

/-- The bytes of a global variable outside of its entry. -/
def globalSize (t : DifType) : ℕ := if t.byRef then t.size + 8 else 0

/-- The static variable `ndx`, made if there is none, is held once more. -/
def holdStatic (k : Kernel) (i dsize ndx : ℕ) (v : DifVar) (svars : List (Option StatVar)) :
    List (Option StatVar) :=
  let svars := grow none ndx svars
  let svar := ((svars[ndx]?).join).getD ⟨if dsize ≠ 0 then k.zalloc i else 0, dsize, 0, v⟩
  svars.set ndx (some { svar with refcnt := svar.refcnt + 1 })

/-- The entry of a thread-local variable that nothing was stored to. -/
def zeroVar : DifVar := ⟨0, 0, 0, ⟨0, 0⟩⟩

/-- The body of the loop; a scope that is none of the three is not handled. -/
def initVar (k : Kernel) (i : ℕ) (v : DifVar) (vs : VState) : Option VState :=
  if v.id < difVarOtherUbase then some vs
  else
    let ndx := v.id - difVarOtherUbase
    match v.scope with
    | 0 => some { vs with globals := holdStatic k i (globalSize v.type) ndx v vs.globals }
    | 1 => some { vs with tlocals := (grow zeroVar ndx vs.tlocals).set ndx v }
    | 2 => some { vs with locals := holdStatic k i (localSize k v.type) ndx v vs.locals }
    | _ => none

/-- The loop over the variables of the table, from the `i`th on. -/
def initVars (k : Kernel) : ℕ → List DifVar → VState → Option VState
  | _, [], vs => some vs
  | i, v :: vars, vs => do
    let vs ← initVar k i v vs
    initVars k (i + 1) vars vs

def dtraceDifoInit (k : Kernel) (dp : Difo) (vs : VState) : Option VState := do
  let vs ← initVars k 0 dp.vartab vs
  return dtraceDifoChunksize dp k.strsizeDefault vs

/-! ## What the table brings -/

/-- With the variable `v` in its table an object makes the variable `ndx` of a scope exist,
where there are `n` variables of the thread so far. These have no pointers, so that all of
the grown array counts. -/
def DifVar.Brings (v : DifVar) (n scope ndx : ℕ) : Prop :=
  difVarOtherUbase ≤ v.id ∧ v.scope = scope ∧
    if scope = 1 then ndx < grownLen (v.id - difVarOtherUbase) n
    else ndx = v.id - difVarOtherUbase

theorem exists_some_some {α : Type*} {l : List (Option α)} {j : ℕ} :
    (∃ a, l[j]? = some (some a)) ↔ ∃ a, (l[j]?).join = some a := by
  simp only [join_eq_some_iff]

theorem holdStatic_iff (k : Kernel) (i dsize ndx : ℕ) (v : DifVar) (svars : List (Option StatVar))
    (j : ℕ) : (∃ svar, (holdStatic k i dsize ndx v svars)[j]? = some (some svar)) ↔
      (∃ svar, svars[j]? = some (some svar)) ∨ j = ndx := by
  have hlen : ndx < (grow none ndx svars).length := by
    rw [grow_length]
    exact lt_grownLen _ _
  unfold holdStatic
  by_cases hj : j = ndx
  · subst hj
    simp [List.getElem?_set_self hlen]
  · rw [List.getElem?_set_ne (Ne.symm hj), exists_some_some, exists_some_some, grow_none_join]
    simp [hj]

variable {k : Kernel} {i : ℕ} {v : DifVar} {vs vs' : VState}

section

variable (h : initVar k i v vs = some vs')
include h

theorem initVar_has (scope ndx : ℕ) :
    vs'.Has scope ndx ↔ vs.Has scope ndx ∨ v.Brings vs.tlocals.length scope ndx := by
  unfold initVar at h
  split at h
  · cases h
    have : ¬ v.Brings vs.tlocals.length scope ndx := fun hb => absurd hb.1 (by omega)
    simp [this]
  rename_i hid
  have hid' : difVarOtherUbase ≤ v.id := Nat.le_of_not_lt hid
  unfold DifVar.Brings
  split at h
  · rename_i hs
    cases h
    rcases scope with _ | _ | _ | scope
    · simp only [VState.Has, holdStatic_iff]
      simp [hid', hs]
    all_goals simp [VState.Has, hs]
  · rename_i hs
    cases h
    rcases scope with _ | _ | _ | scope
    · simp [VState.Has, hs]
    · have hle := le_grownLen (v.id - difVarOtherUbase) vs.tlocals.length
      simp only [VState.Has, length_set, grow_length, hs, hid', true_and, if_true]
      omega
    all_goals simp [VState.Has, hs]
  · rename_i hs
    cases h
    rcases scope with _ | _ | _ | scope
    · simp [VState.Has, hs]
    · simp [VState.Has, hs]
    · simp only [VState.Has, holdStatic_iff]
      simp [hid', hs]
    · simp [VState.Has, hs]
  · cases h

theorem initVar_tlocals : vs'.tlocals.length = vs.tlocals.length ∨ difVarOtherUbase ≤ v.id ∧ v.scope = 1 ∧
        vs'.tlocals.length = grownLen (v.id - difVarOtherUbase) vs.tlocals.length := by
  unfold initVar at h
  split at h
  · exact .inl (some.inj h ▸ rfl)
  rename_i hid
  split at h
  · exact .inl (some.inj h ▸ rfl)
  · rename_i hs
    refine .inr ⟨Nat.le_of_not_lt hid, hs, ?_⟩
    cases h
    simp only [length_set, grow_length]
  · exact .inl (some.inj h ▸ rfl)
  · cases h

theorem Brings_after (w : DifVar) (scope ndx : ℕ) :
    v.Brings vs.tlocals.length scope ndx ∨ w.Brings vs'.tlocals.length scope ndx ↔
      v.Brings vs.tlocals.length scope ndx ∨ w.Brings vs.tlocals.length scope ndx := by
  rcases initVar_tlocals h with heq | ⟨hid, hs, heq⟩
  · rw [heq]
  unfold DifVar.Brings
  rw [heq, grownLen_grownLen]
  by_cases hscope : scope = 1
  · subst hscope
    simp only [if_true, hid, hs, true_and]
    constructor
    · rintro (h1 | ⟨h1, h2, h3⟩)
      · exact .inl h1
      · rcases Nat.lt_or_ge ndx (grownLen (v.id - difVarOtherUbase) vs.tlocals.length) with h4 | h4
        · exact .inl h4
        · exact .inr ⟨h1, h2, by omega⟩
    · rintro (h1 | ⟨h1, h2, h3⟩)
      · exact .inl h1
      · exact .inr ⟨h1, h2, h3.trans_le (Nat.le_max_right _ _)⟩
  · simp only [if_neg hscope]

end

theorem initVars_has : ∀ {vars : List DifVar} {i : ℕ} {vs vs' : VState},
    initVars k i vars vs = some vs' → ∀ scope ndx, vs'.Has scope ndx ↔
      vs.Has scope ndx ∨ ∃ v ∈ vars, v.Brings vs.tlocals.length scope ndx := by
  intro vars
  induction vars with
  | nil =>
    intro i vs vs' h scope ndx
    cases h
    simp
  | cons v vars ih =>
    intro i vs vs' h scope ndx
    obtain ⟨vs1, h1, h2⟩ := bind_eq_some_iff.1 h
    have hstep := fun w => Brings_after h1 w scope ndx
    rw [ih h2, initVar_has h1, exists_mem_cons_iff]
    constructor
    · rintro ((h | h) | ⟨w, hw, h⟩)
      · exact .inl h
      · exact .inr (.inl h)
      · rcases (hstep w).1 (.inr h) with h | h
        · exact .inr (.inl h)
        · exact .inr (.inr ⟨w, hw, h⟩)
    rintro (h | h | ⟨w, hw, h⟩)
    · exact .inl (.inl h)
    · exact .inl (.inr h)
    · rcases (hstep w).2 (.inr h) with h | h
      · exact .inl (.inr h)
      · exact .inr ⟨w, hw, h⟩

variable {dp : Difo}

theorem difoInit_has (h : dtraceDifoInit k dp vs = some vs') (scope ndx : ℕ) : vs'.Has scope ndx ↔
      vs.Has scope ndx ∨ ∃ v ∈ dp.vartab, v.Brings vs.tlocals.length scope ndx := by
  obtain ⟨vs1, h1, h2⟩ := bind_eq_some_iff.1 h
  cases h2
  exact initVars_has h1 scope ndx

/-! ## Validated objects -/

theorem checkVar_nil {vs : VarState} (h : checkVar vs i v = []) : v.scope ≤ 2 ∧ v.id ≤ difVariableMax := by
  unfold checkVar at h
  split at h
  · cases h
  · split at h
    · cases h
    · split at h
      · cases h
      · exact ⟨by omega, by omega⟩

theorem validateVars_nil {vs : VarState} : ∀ {vars : List DifVar} {i : ℕ},
    validateVars vs i vars = [] → ∀ v ∈ vars, v.scope ≤ 2 ∧ v.id ≤ difVariableMax := by
  intro vars
  induction vars with
  | nil => simp
  | cons v vars ih =>
    intro i h w hw
    unfold validateVars at h
    by_cases hc : checkVar vs i v = []
    · rw [if_pos hc] at h
      rcases mem_cons.1 hw with rfl | hw
      · exact checkVar_nil hc
      · exact ih h w hw
    · rw [if_neg hc] at h
      exact absurd h hc

theorem vartab_of_validate {dp' : Difo} {vs : VarState} {nregs : ℕ} {kcheckload : Bool}
    (h : dtraceDifoValidate dp vs nregs kcheckload = ([], dp')) :
    ∀ v ∈ dp'.vartab, v.scope ≤ 2 ∧ v.id ≤ difVariableMax := by
  unfold dtraceDifoValidate at h
  rcases hpass : validateInstrs nregs kcheckload dp.buf.length 0
    { dp with destructive := false } with ⟨err, dp1⟩
  rw [hpass] at h
  obtain ⟨hfst, rfl⟩ := Prod.mk.inj h
  split at hfst
  · exact validateVars_nil hfst
  · rename_i hne
    exact absurd hfst hne

theorem initVars_total : ∀ {vars : List DifVar} (i : ℕ) (vs : VState),
    (∀ v ∈ vars, v.scope ≤ 2) → ∃ vs', initVars k i vars vs = some vs' := by
  intro vars
  induction vars with
  | nil => exact fun i vs _ => ⟨vs, rfl⟩
  | cons v vars ih =>
    intro i vs h
    obtain ⟨vs1, h1⟩ : ∃ vs1, initVar k i v vs = some vs1 := by
      unfold initVar
      split
      · exact ⟨_, rfl⟩
      have hle := h v mem_cons_self
      rcases hs : v.scope with _ | _ | _ | scope
      · exact ⟨_, rfl⟩
      · exact ⟨_, rfl⟩
      · exact ⟨_, rfl⟩
      · omega
    obtain ⟨vs2, h2⟩ := ih (i + 1) vs1 fun w hw => h w (mem_cons_of_mem v hw)
    exact ⟨vs2, bind_eq_some_iff.2 ⟨vs1, h1, h2⟩⟩

theorem difoInit_total {dp' : Difo} {gmax nregs : ℕ} {kcheckload : Bool} (k : Kernel)
    (h : dtraceDifoValidate dp (vs.defs gmax) nregs kcheckload = ([], dp')) :
    ∃ vs', dtraceDifoInit k dp' vs = some vs' := by
  obtain ⟨vs1, h1⟩ := initVars_total 0 vs fun v hv => (vartab_of_validate h v hv).1
  exact ⟨_, bind_eq_some_iff.2 ⟨vs1, h1, rfl⟩⟩

/-! ## Instructions and variables -/

/-- The scope and the number of the user-defined variable that an instruction refers to. With
a number below `DIF_VAR_OTHER_UBASE` `LDGS` means a variable of DTrace's own, and `LDLS` none. -/
def varAccess (instr : ℕ) : Option (ℕ × ℕ) :=
  let v := difInstrVar instr
  match difOp (difInstrOp instr) with
  | some .ldgs => if difVarOtherUbase ≤ v then some (0, userVar v) else none
  | some .ldls => if v < difVarOtherUbase then none else some (2, userVar v)
  | some .stgs | some .ldgaa | some .stgaa => some (0, userVar v)
  | some .ldts | some .stts | some .ldtaa | some .sttaa => some (1, userVar v)
  | some .stls => some (2, userVar v)
  | _ => none

variable {ndx : ℕ}

theorem varAccess_eq {instr scope : ℕ} (h : varAccess instr = some (scope, ndx)) :
    ndx = userVar (difInstrVar instr) := by
  unfold varAccess at h
  split at h <;> simp_all

theorem difInstrVar_lt (i : ℕ) : difInstrVar i < 2 ^ 16 := by
  unfold difInstrVar
  rw [and_two_pow_sub_one_eq_mod _ 16]
  exact mod_lt _ (by decide)

theorem userVar_of_le {v : ℕ} (h : difVarOtherUbase ≤ v) (hv : v < 2 ^ 16) :
    userVar v = v - difVarOtherUbase := by
  unfold userVar difVarOtherUbase at *
  omega

theorem userVar_of_lt {v : ℕ} (h : v < difVarOtherUbase) : 2 ^ 31 ≤ userVar v := by
  unfold userVar difVarOtherUbase at *
  omega

theorem VState.Fits.not_has (h : vs.Fits) (hn : 2 ^ 31 ≤ ndx) (scope : ℕ) : ¬ vs.Has scope ndx := by
  have hg := h.globals
  have ht := h.tlocals
  have hl := h.locals
  rcases scope with _ | _ | _ | scope
  · rintro ⟨svar, hs⟩
    have := (List.getElem?_eq_some_iff.1 hs).1
    omega
  · show ¬ ndx < vs.tlocals.length
    omega
  · rintro ⟨svar, hs⟩
    have := (List.getElem?_eq_some_iff.1 hs).1
    omega
  · exact fun h => h

theorem not_Brings {n scope : ℕ} (hv : v.id ≤ difVariableMax) (hlt : n < 2 ^ 31)
    (hn : 2 ^ 31 ≤ ndx) : ¬ v.Brings n scope ndx := by
  rintro ⟨-, -, hb⟩
  have hle := grownLen_le (v.id - difVarOtherUbase) n
  unfold difVariableMax at hv
  split at hb <;> omega

/-- The variable of the field `v` is known: the number is that of a user-defined variable,
which exists already or is brought by the object's table. -/
def Known (vs : VState) (vartab : List DifVar) (scope v : ℕ) : Prop :=
  difVarOtherUbase ≤ v ∧ (vs.Has scope (v - difVarOtherUbase) ∨
    ∃ w ∈ vartab, w.Brings vs.tlocals.length scope (v - difVarOtherUbase))

/-- An object that is accepted and loaded, executed from any state: an instruction refers to a
variable that exists just if its variable is known. -/
theorem dif_variable_exists_iff {W : Type} {dp dp' : Difo} {vs : VState} {gmax : ℕ}
    {kcheckload : Bool} (k : Kernel) (hfits : vs.Fits)
    (hv : dtraceDifoValidate dp (vs.defs gmax) difDirNregs kcheckload = ([], dp')) (E : Ext W)
    {regs : List Word} {tupregs : List Key} (hregs : regs.length = difDirNregs)
    (htup : tupregs.length = difDtrNregs + 2) (cpu : Cpu W) :
    ∃ vs' ms last, dtraceDifoInit k dp' vs = some vs' ∧
      dtraceDifEmulate E dp' regs tupregs cpu = some (ms, last) ∧
      ∀ m ∈ ms, ∃ instr, dp'.buf[m.pc]? = some instr ∧ ∀ scope ndx,
        varAccess instr = some (scope, ndx) →
        (vs'.Has scope ndx ↔ Known vs dp'.vartab scope (difInstrVar instr)) := by
  have htab := vartab_of_validate hv
  obtain ⟨hvalid, -⟩ := valid_of_validate hv
  obtain ⟨vs', hinit⟩ := difoInit_total k hv
  obtain ⟨ms, last, hrun, hruns⟩ := loop_runs hvalid dp'.buf.length
    (initial regs tupregs cpu) (initial_sound cpu hregs htup) (sub_le _ _)
  refine ⟨vs', ms, last, hinit, hrun, ?_⟩
  intro m hm
  obtain ⟨instr, hinstr⟩ : ∃ instr, dp'.buf[m.pc]? = some instr :=
    ⟨_, List.getElem?_eq_getElem (hruns.inside m hm).2⟩
  refine ⟨instr, hinstr, fun scope ndx ha => ?_⟩
  rw [difoInit_has hinit, varAccess_eq ha]
  by_cases hub : difVarOtherUbase ≤ difInstrVar instr
  · rw [userVar_of_le hub (difInstrVar_lt instr)]
    exact ⟨fun h => ⟨hub, h⟩, fun h => h.2⟩
  have hbig := userVar_of_lt (Nat.lt_of_not_le hub)
  constructor
  · rintro (h | ⟨w, hw, h⟩)
    · exact absurd h (hfits.not_has hbig scope)
    · exact absurd h (not_Brings (htab w hw).2 hfits.tlocals hbig)
  · exact fun h => absurd h.1 hub

/-- `ldgs 0x500, %r1; ret %r1`. -/
def readsGlobal (vartab : List DifVar) : Difo :=
  { textOnly [difInstrFmt 41 5 0 1, difInstrFmt 35 0 0 1] with vartab := vartab }

def noVState : VState := ⟨[], [], [], 0⟩

def smallKernel : Kernel := ⟨2, fun _ => 0x1000, 256⟩

theorem dif_variable_exists_iff_listed :
    dtraceDifoValidate (readsGlobal [⟨0x500, 1, 0, ⟨0, 8⟩⟩])
      (noVState.defs 16384) difDirNregs true = ([], readsGlobal [⟨0x500, 1, 0, ⟨0, 8⟩⟩]) ∧
    ∃ vs' ms last, dtraceDifoInit smallKernel (readsGlobal [⟨0x500, 1, 0, ⟨0, 8⟩⟩]) noVState =
        some vs' ∧
      dtraceDifEmulate idleExt (readsGlobal [⟨0x500, 1, 0, ⟨0, 8⟩⟩]) (replicate 8 1)
        (replicate 10 ⟨0, 0⟩) idleCpu = some (ms, last) ∧
      ∀ m ∈ ms, m.pc = 0 → vs'.Has 0 0 := by
  have hv : dtraceDifoValidate (readsGlobal [⟨0x500, 1, 0, ⟨0, 8⟩⟩]) (noVState.defs 16384)
      difDirNregs true = ([], readsGlobal [⟨0x500, 1, 0, ⟨0, 8⟩⟩]) := rfl
  obtain ⟨vs', ms, last, hinit, hrun, hall⟩ := dif_variable_exists_iff smallKernel
    ⟨by decide, by decide, by decide⟩ hv idleExt (show (replicate 8 1).length = 8 from rfl)
    length_replicate idleCpu
  refine ⟨hv, vs', ms, last, hinit, hrun, fun m hm hpc => ?_⟩
  obtain ⟨instr, hinstr, hknown⟩ := hall m hm
  rw [hpc] at hinstr
  obtain rfl : difInstrFmt 41 5 0 1 = instr := Option.some.inj hinstr
  refine (hknown 0 0 (by decide)).2 ?_
  exact ⟨by decide, .inr ⟨_, mem_singleton_self _, by decide, rfl, by decide⟩⟩

/-- An object that reads a global which it does not list, in a state without any, is accepted,
loaded and executed: the array of globals is read outside. -/
theorem unlisted_global_is_read :
    dtraceDifoValidate (readsGlobal []) (noVState.defs 16384) difDirNregs true =
      ([], readsGlobal []) ∧
    dtraceDifoInit smallKernel (readsGlobal []) noVState = some noVState ∧
    ∃ ms last, dtraceDifEmulate idleExt (readsGlobal []) (replicate 8 1)
        (replicate 10 ⟨0, 0⟩) idleCpu = some (ms, last) ∧
      ∃ m ∈ ms, (readsGlobal []).buf[m.pc]? = some (difInstrFmt 41 5 0 1) ∧
        varAccess (difInstrFmt 41 5 0 1) = some (0, 0) ∧ noVState.globals.length = 0 ∧
        ¬ noVState.Has 0 0 := by
  refine ⟨rfl, rfl, _, _, rfl, initial (replicate 8 1) (replicate 10 ⟨0, 0⟩) idleCpu,
    mem_cons_self, rfl, by decide, rfl, ?_⟩
  rintro ⟨svar, h⟩
  cases h

end Osol.Dtrace
