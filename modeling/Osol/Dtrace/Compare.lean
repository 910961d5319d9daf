import Osol.Dtrace.Safety

/-!
# Comparisons

What the branches after a `cmp` decide, and what `dtrace_probe` makes of the value of a
predicate.
-/

namespace Osol.Dtrace

open BitVec Bool

def BranchOp.Rel (b : BranchOp) (x y : Word) : Prop :=
  match b with
  | .ba => True
  | .be => x = y
  | .bne => x ≠ y
  | .bg => y.toInt < x.toInt
  | .bgu => y.toNat < x.toNat
  | .bge => y.toInt ≤ x.toInt
  | .bgeu => y.toNat ≤ x.toNat
  | .bl => x.toInt < y.toInt
  | .blu => x.toNat < y.toNat
  | .ble => x.toInt ≤ y.toInt
  | .bleu => x.toNat ≤ y.toNat

def BranchOp.signed : BranchOp → Bool
  | .bg | .bge | .bl | .ble => true
  | _ => false

/-- The difference of two registers is one of 64 bits. -/
def DiffFits (x y : Word) : Prop := -2 ^ 63 ≤ x.toInt - y.toInt ∧ x.toInt - y.toInt < 2 ^ 63

def cmpTaken (b : BranchOp) (x y : Word) : Bool := taken b (x - y).msb (x - y == 0) false (x < y)

/-- The sign of the difference is that of the comparison, unless it wraps around. -/
theorem sub_msb_iff (x y : Word) : ((x - y).msb = true ↔ x.toInt < y.toInt) ↔ DiffFits x y := by
  have hx := le_toInt x
  have hx' := toInt_lt (x := x)
  have hy := le_toInt y
  have hy' := toInt_lt (x := y)
  rw [msb_eq_toInt, decide_eq_true_iff, toInt_sub, Int.bmod_def]
  unfold DiffFits
  split <;> omega

theorem cmpTaken_iff (b : BranchOp) (x y : Word) :
    (cmpTaken b x y = true ↔ b.Rel x y) ↔ (b.signed = true → DiffFits x y) := by
  have hz : (x - y == 0) = decide (x = y) := by
    rw [Bool.eq_iff_iff, beq_iff_eq, decide_eq_true_iff]
    constructor <;> intro h <;> bv_omega
  have heq : x = y ↔ x.toInt = y.toInt := toInt_inj.symm
  have hmsb := sub_msb_iff x y
  cases b <;> simp only [cmpTaken, taken, BranchOp.Rel, BranchOp.signed, hz, Bool.xor_false,
    not_eq_true', or_eq_true, or_eq_false_iff, decide_eq_true_iff,
    decide_eq_false_iff_not, lt_def] <;> grind

variable {W : Type} (E : Ext W) {difo : Difo} {m : Machine W} {i j : ℕ} {b : BranchOp} {x y : Word}

theorem step_cmp (hi : difo.buf[m.pc]? = some i) (hcmp : difOp (difInstrOp i) = some .cmp)
    (hx : m.regs[difInstrR1 i]? = some x) (hy : m.regs[difInstrR2 i]? = some y) :
    step E difo m = some ((), { m with
      pc := m.pc + 1, ccN := (x - y).msb, ccZ := x - y == 0, ccV := false, ccC := x < y }) := by
  simp [step, hi, hcmp, exec, getReg, hx, hy, setCc, bind, StateT.bind]

theorem step_branch (hj : difo.buf[m.pc]? = some j)
    (hbranch : difOp (difInstrOp j) = some (.branch b)) :
    step E difo m = some ((), { m with
      pc := if taken b m.ccN m.ccZ m.ccV m.ccC then difInstrLabel j else m.pc + 1 }) := by
  simp only [step, hj, hbranch, exec, bind, StateT.bind, getCc, Option.bind_some]
  split <;> rfl

/-- `CPU_DTRACE_ERROR`. -/
def errorFlags : BitVec 16 := faultFlags ||| 0x0002

/-- `dtrace_probe` goes on to the actions, with the flags after the predicate and its value. -/
def probeRunsActions (flags : BitVec 16) (pred : Option Word) : Bool :=
  let error := flags &&& errorFlags != 0
  match pred with
  | none => !error
  | some value =>
    -- `rval` is an `int`
    let rval := value.setWidth 32
    if !error && rval == 0 then false else !error

theorem probeRunsActions_iff {flags : BitVec 16} (hf : flags &&& errorFlags = 0) (value : Word) :
    (value ≠ 0 → probeRunsActions flags (some value) = true) ↔ value = 0 ∨ value.setWidth 32 ≠ 0 := by
  simp only [probeRunsActions, hf, bne_self_eq_false, Bool.not_false, Bool.true_and, beq_iff_eq,
    Bool.if_false_left, Bool.and_true, not_eq_true', decide_eq_false_iff_not]
  tauto

/-- A `cmp` and a branch decide the relation of the registers, exactly when it is one of unsigned
values or the difference does not wrap around; and the actions of a clause run for a value of its
predicate that is not zero, exactly when its low 32 bits are not zero. -/
theorem dif_compare_iff (flags : BitVec 16) (value : Word) (hi : difo.buf[m.pc]? = some i)
    (hcmp : difOp (difInstrOp i) = some .cmp) (hj : difo.buf[m.pc + 1]? = some j)
    (hbranch : difOp (difInstrOp j) = some (.branch b)) (hx : m.regs[difInstrR1 i]? = some x)
    (hy : m.regs[difInstrR2 i]? = some y) (hf : flags &&& errorFlags = 0) :
    (∃ t : Bool, ((step E difo >>= fun _ => step E difo) m).map (·.2.pc) =
        some (if t then difInstrLabel j else m.pc + 2) ∧
      ((t = true ↔ b.Rel x y) ↔ (b.signed = true → DiffFits x y))) ∧
    ((value ≠ 0 → probeRunsActions flags (some value) = true) ↔
      value = 0 ∨ value.setWidth 32 ≠ 0) := by
  refine ⟨⟨cmpTaken b x y, ?_, cmpTaken_iff b x y⟩, probeRunsActions_iff hf value⟩
  show (Option.bind (step E difo m) fun r => step E difo r.2).map (·.2.pc) = _
  rw [step_cmp E hi hcmp hx hy, Option.bind_some, step_branch E hj hbranch]
  rfl

def cmpBl : Difo := textOnly [difInstrFmt 15 1 2 0, difInstrFmt 24 0 0 5]

/-- The registers before it. -/
def cmpBlStart (x y : Word) : Machine Unit := initial [0, x, y] [] idleCpu

theorem dif_compare_minus_one :
    ((step idleExt cmpBl >>= fun _ => step idleExt cmpBl) (cmpBlStart (-1) 1)).map (·.2.pc) =
      some 5 ∧ probeRunsActions 0 (some 1) = true := by
  obtain ⟨⟨t, hpc, hrel⟩, hrun⟩ := @dif_compare_iff Unit idleExt cmpBl (cmpBlStart (-1) 1) _ _
    .bl _ _ 0 1 rfl rfl rfl rfl rfl rfl rfl
  have hfits : DiffFits (-1) 1 := by unfold DiffFits; decide
  have hless : BranchOp.bl.Rel (-1) 1 := show (-1 : Word).toInt < (1 : Word).toInt by decide
  obtain rfl : t = true := (hrel.2 fun _ => hfits).2 hless
  exact ⟨hpc, hrun.2 (.inr (by decide)) (by decide)⟩

/-- `INT64_MIN` is not found to be less than one, and a predicate whose value is `2 ^ 32` does
not hold. -/
theorem dif_compare_wraps : ((step idleExt cmpBl >>= fun _ => step idleExt cmpBl)
      (cmpBlStart (intMin 64) 1)).map (·.2.pc) = some 2 ∧
      BranchOp.bl.Rel (intMin 64) 1 ∧
      probeRunsActions 0 (some (BitVec.ofNat 64 (2 ^ 32))) = false :=
  ⟨rfl, show (intMin 64).toInt < (1 : Word).toInt by decide, by decide⟩

end Osol.Dtrace
