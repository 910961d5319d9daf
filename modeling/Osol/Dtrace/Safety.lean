import Osol.Dtrace.Emulate
import Osol.Dtrace.Validate

/-!
# What the validation is for

Every instruction that passes the checks is executed without an access outside, and goes on to
a later one.
-/

namespace Osol.Dtrace

open Osol.Lib List Nat Option Prod

/-! ## The checks -/

variable {pc : ℕ}

@[simp] theorem errIf_eq_nil {c : Prop} [Decidable c] {msg : DifoMsg} : errIf c pc msg = [] ↔ ¬ c := by
  unfold errIf
  split <;> simp_all

variable {nregs r : ℕ}

@[simp] theorem checkReg_eq_nil : checkReg nregs pc r = [] ↔ r < nregs := by
  unfold checkReg
  simp

@[simp] theorem checkRd_eq_nil {rd : ℕ} : checkRd nregs pc rd = [] ↔ rd < nregs ∧ rd ≠ 0 := by
  unfold checkRd
  simp

@[simp] theorem checkLoad_eq_nil {r1 r2 rd : ℕ} :
    checkLoad nregs pc r1 r2 rd = [] ↔ (r1 < nregs ∧ r2 = 0) ∧ rd < nregs ∧ rd ≠ 0 := by
  unfold checkLoad
  simp [and_assoc]

/-! ## The registers and the tuple stack -/

variable {W : Type} {E : Ext W} {difo : Difo} {k : ℕ}

/-- What the emulator relies on between accesses. -/
structure Sound (m : Machine W) : Prop where
  regs : m.regs.length = difDirNregs
  r0 : m.regs[0]? = some 0
  tupregs : m.tupregs.length = difDtrNregs + 2
  ttop : m.ttop ≤ difDtrNregs

def At (k : ℕ) (m : Machine W) : Prop := Sound m ∧ m.pc = k ∧ m.trapped = false

theorem keeps_getReg (h : r < difDirNregs) : Keeps (At k) (getReg r : Emul W Word) := by
  rintro m ⟨hm, hpc⟩
  have hlt : r < m.regs.length := by rw [hm.regs]; exact h
  refine ⟨m.regs[r], m, ?_, hm, hpc⟩
  unfold getReg
  rw [List.getElem?_eq_getElem hlt]
  rfl

theorem keeps_setReg (h : r < difDirNregs) (h0 : r ≠ 0) (v : Word) :
    Keeps (At k) (setReg r v : Emul W Unit) := by
  rintro m ⟨hm, hpc⟩
  refine ⟨(), { m with regs := m.regs.set r v }, ?_, ⟨?_, ?_, hm.tupregs, hm.ttop⟩, hpc⟩
  · unfold setReg
    rw [if_pos (by rw [hm.regs]; exact h)]
  · rw [length_set]
    exact hm.regs
  · rw [List.getElem?_set_ne h0]
    exact hm.r0

variable {i : ℕ}

theorem keeps_setTup (h : i < difDtrNregs + 2) (key : Key) : Keeps (At k) (setTup i key : Emul W Unit) := by
  rintro m ⟨hm, hpc⟩
  refine ⟨(), { m with tupregs := m.tupregs.set i key }, ?_, ⟨hm.regs, hm.r0, ?_, hm.ttop⟩, hpc⟩
  · unfold setTup
    rw [if_pos (by rw [hm.tupregs]; exact h)]
  · rw [length_set]
    exact hm.tupregs

theorem getTtop_le : Total (At k) (getTtop : Emul W ℕ) fun n m => At k m ∧ n ≤ difDtrNregs :=
  fun m hm => ⟨m.ttop, m, rfl, hm, hm.1.ttop⟩

variable {n : ℕ}

theorem keeps_setTtop (h : n ≤ difDtrNregs) : Keeps (At k) (setTtop n : Emul W Unit) :=
  fun _ hm => ⟨(), _, rfl, ⟨hm.1.regs, hm.1.r0, hm.1.tupregs, h⟩, hm.2⟩

theorem keeps_getTupregs : Keeps (At k) (getTupregs : Emul W (List Key)) :=
  fun m hm => ⟨m.tupregs, m, rfl, hm⟩

theorem keeps_setCc (n z v c : Bool) : Keeps (At k) (setCc n z v c : Emul W Unit) :=
  fun _ hm => ⟨(), _, rfl, ⟨hm.1.regs, hm.1.r0, hm.1.tupregs, hm.1.ttop⟩, hm.2⟩

theorem keeps_getCc : Keeps (At k) (getCc : Emul W (Bool × Bool × Bool × Bool)) :=
  fun m hm => ⟨_, m, rfl, hm⟩

theorem keeps_look {α : Type} (f : Cpu W → α) : Keeps (At k) (look f : Emul W α) :=
  fun m hm => ⟨_, m, rfl, hm⟩

theorem keeps_call {α : Type} (f : Cpu W → α × Cpu W) : Keeps (At k) (call f : Emul W α) :=
  fun _ hm => ⟨_, _, rfl, ⟨hm.1.regs, hm.1.r0, hm.1.tupregs, hm.1.ttop⟩, hm.2⟩

theorem keeps_run (f : Cpu W → Cpu W) : Keeps (At k) (run f : Emul W Unit) :=
  fun _ hm => ⟨_, _, rfl, ⟨hm.1.regs, hm.1.r0, hm.1.tupregs, hm.1.ttop⟩, hm.2⟩

theorem keeps_getInt (h : i < difo.inttab.length) : Keeps (At k) (getInt difo i : Emul W Word) := by
  intro m hm
  refine ⟨difo.inttab[i], m, ?_, hm⟩
  unfold getInt
  rw [List.getElem?_eq_getElem h]
  rfl

theorem keeps_getStr (h : i < difo.strlen) : Keeps (At k) (getStr difo i : Emul W Word) := by
  intro m hm
  refine ⟨difo.strtab + BitVec.ofNat 64 i, m, ?_, hm⟩
  unfold getStr
  rw [if_pos h]

/-! ## The instructions -/

section Exec

variable {r1 r2 rd : ℕ}

section

variable (q : LdKind) (h1 : r1 < difDirNregs) (hd : rd < difDirNregs) (h0 : rd ≠ 0)
include q h1 hd h0

theorem keeps_execLd : Keeps (At k) (execLd E q r1 rd) :=
  .bind (keeps_getReg h1) fun _ => .bind (keeps_call _) fun _ => keeps_setReg hd h0 _

theorem keeps_execRld : Keeps (At k) (execRld E q r1 rd) :=
  .bind (keeps_getReg h1) fun _ => .bind (keeps_look _) fun _ =>
  .ite (keeps_execLd q h1 hd h0) (keeps_run _)

theorem keeps_execUld : Keeps (At k) (execUld E q r1 rd) :=
  .bind (keeps_getReg h1) fun _ => .bind (keeps_call _) fun _ => keeps_setReg hd h0 _

end

theorem keeps_execSt (q : StKind) (h1 : r1 < difDirNregs) (hd : rd < difDirNregs) :
    Keeps (At k) (execSt E q r1 rd) :=
  .bind (keeps_getReg hd) fun _ => .bind (keeps_look _) fun _ =>
    .ite (.ite (keeps_run _) (.bind (keeps_getReg h1) fun _ => keeps_run _)) (keeps_run _)

theorem keeps_strOk (s : Word) : Keeps (At k) (strOk E s) := .ite (.pure _) (keeps_call _)

theorem keeps_execScmp (h1 : r1 < difDirNregs) (h2 : r2 < difDirNregs) : Keeps (At k) (execScmp E r1 r2) :=
  .bind (keeps_getReg h1) fun _ => .bind (keeps_getReg h2) fun _ => .bind (keeps_strOk _) fun _ =>
    .ite (.bind (keeps_strOk _) fun _ =>
      .ite (.bind (keeps_call _) fun _ => keeps_setCc _ _ _ _) (.pure _)) (.pure _)

theorem keeps_tlsKeys (id : ℕ) : Keeps (At k) (tlsKeys E id) :=
  .bind (keeps_setTup (by decide) _) fun _ => .bind (keeps_look _) fun _ =>
    .bind (keeps_setTup (by decide) _) fun _ => .bind keeps_getTupregs fun _ => .pure _

theorem keeps_arrayKeys (tlocal : Bool) (id : ℕ) : Keeps (At k) (arrayKeys E tlocal id) := by
  refine Total.bind getTtop_le fun n => Total.of_fact fun hn => ?_
  refine Keeps.bind (keeps_setTup (by omega) _) fun _ => Keeps.ite ?_ ?_
  · exact .bind (keeps_look _) fun _ => .bind (keeps_setTup (by omega) _) fun _ =>
      .bind keeps_getTupregs fun _ => .pure _
  · exact .bind keeps_getTupregs fun _ => .pure _

theorem keeps_keySize (type : ℕ) (v n : Word) : Keeps (At k) (keySize E type v n) :=
  .ite (.bind (keeps_call _) fun _ => .pure _) (.pure _)

theorem keeps_execPushtr (h2 : r2 < difDirNregs) (hd : rd < difDirNregs) :
    Keeps (At k) (execPushtr E r1 r2 rd) := by
  refine Total.bind getTtop_le fun n => Total.of_fact fun hn => ?_
  unfold difDtrNregs at hn
  split_ifs with hfull
  · exact keeps_run _
  unfold difDtrNregs at hfull
  refine Keeps.bind (keeps_getReg hd) fun v => Keeps.bind (keeps_getReg h2) fun n =>
    Keeps.bind (keeps_keySize _ v n) fun size => Keeps.bind (keeps_setTup ?_ _) fun _ => keeps_setTtop ?_
  · unfold difDtrNregs
    omega
  · unfold difDtrNregs
    omega

theorem keeps_execPushtv (hd : rd < difDirNregs) : Keeps (At k) (execPushtv rd : Emul W Unit) := by
  refine Total.bind getTtop_le fun n => Total.of_fact fun hn => ?_
  unfold difDtrNregs at hn
  split_ifs with hfull
  · exact keeps_run _
  unfold difDtrNregs at hfull
  refine Keeps.bind (keeps_getReg hd) fun v => Keeps.bind (keeps_setTup ?_ _) fun _ => keeps_setTtop ?_
  · unfold difDtrNregs
    omega
  · unfold difDtrNregs
    omega

theorem keeps_execAllocs (h1 : r1 < difDirNregs) (hd : rd < difDirNregs) (h0 : rd ≠ 0) :
    Keeps (At k) (execAllocs E r1 rd) :=
  .bind (keeps_getReg h1) fun _ => .bind (keeps_look _) fun _ => .bind (keeps_look _) fun _ =>
    .ite (.bind (keeps_run _) fun _ => keeps_setReg hd h0 _)
      (.bind (keeps_run _) fun _ => .bind (keeps_run _) fun _ => keeps_setReg hd h0 _)

theorem keeps_execCopys (h1 : r1 < difDirNregs) (h2 : r2 < difDirNregs) (hd : rd < difDirNregs) :
    Keeps (At k) (execCopys E r1 r2 rd) :=
  .bind (keeps_getReg hd) fun _ => .bind (keeps_getReg h2) fun _ => .bind (keeps_look _) fun _ =>
    .ite (.bind (keeps_getReg h1) fun _ => .bind (keeps_call _) fun _ =>
      .ite (keeps_run _) (.pure _)) (keeps_run _)

end Exec

variable {m : Machine W}

/-- After an instruction fetched at `k` a later one is next, or the object is left: by `RET`,
or behind its end. -/
def Onward (difo : Difo) (op : DifOp) (k : ℕ) (m : Machine W) : Prop :=
  Sound m ∧ k < m.pc ∧ (m.pc < difo.buf.length ∨ op = .ret ∨ m.pc = k + 1)

theorem Sound.onward {op : DifOp} (h : Sound m) (hpc : m.pc = k + 1) : Onward difo op k m :=
  ⟨h, by rw [hpc]; omega, .inr (.inr hpc)⟩

/-- An instruction other than a division does not trap. -/
theorem onward_of_keeps {op : DifOp} {c : Emul W Unit} (h : Keeps (At (k + 1)) c) :
    Total (At (k + 1)) c fun _ m => Onward difo op k m ∧ m.trapped = false :=
  h.imp fun _ _ hm => ⟨hm.1.onward hm.2.1, hm.2.2⟩

theorem exec_branch_onward {b : BranchOp} (h : difInstrLabel i < difo.buf.length)
    (hk : k < difInstrLabel i) :
    Total (At (k + 1)) (exec E difo (.branch b) i) fun _ m =>
      Onward difo (.branch b) k m ∧ m.trapped = false := by
  refine Total.bind keeps_getCc fun ⟨n, z, v, c⟩ => Total.ite ?_ (onward_of_keeps (.pure _))
  exact fun m hm => ⟨(), _, rfl, ⟨⟨hm.1.regs, hm.1.r0, hm.1.tupregs, hm.1.ttop⟩, hk, .inl h⟩, hm.2.2⟩

theorem exec_ret_onward (hd : difInstrRd i < difDirNregs) (hk : k < difo.buf.length) :
    Total (At (k + 1)) (exec E difo .ret i) fun _ m =>
      Onward difo .ret k m ∧ m.trapped = false := by
  refine Total.bind (keeps_getReg hd) fun v => ?_
  exact fun m hm => ⟨(), _, rfl,
    ⟨⟨hm.1.regs, hm.1.r0, hm.1.tupregs, hm.1.ttop⟩, hk, .inr (.inl rfl)⟩, hm.2.2⟩

theorem signedDiv_eq_none_iff {div : Word → Word → Word} {x y : Word} :
    signedDiv div x y = none ↔ x = BitVec.intMin 64 ∧ y = -1 := by
  unfold signedDiv
  split
  · next h => simp [h]
  · split <;> simp_all

theorem alu_eq_none_iff {a : AluOp} {x y : Word} :
    alu a x y = none ↔ (a = .sdiv ∨ a = .srem) ∧ x = BitVec.intMin 64 ∧ y = -1 := by
  cases a <;> simp [alu, signedDiv_eq_none_iff]

theorem execAlu_onward (difo : Difo) (a : AluOp) {r1 r2 rd : ℕ} (h1 : r1 < difDirNregs)
    (h2 : r2 < difDirNregs) (hd : rd < difDirNregs) (h0 : rd ≠ 0) (hm : At (k + 1) m) :
    ∃ m', execAlu a r1 r2 rd m = some ((), m') ∧ Onward difo (.alu a) k m' ∧
      (m'.trapped = true ↔ (a = .sdiv ∨ a = .srem) ∧ m.regs[r1]? = some (BitVec.intMin 64) ∧
        m.regs[r2]? = some (-1)) := by
  obtain ⟨x, hx⟩ : ∃ x, m.regs[r1]? = some x := ⟨_, List.getElem?_eq_getElem (by rwa [hm.1.regs])⟩
  obtain ⟨y, hy⟩ : ∃ y, m.regs[r2]? = some y := ⟨_, List.getElem?_eq_getElem (by rwa [hm.1.regs])⟩
  have hrun : execAlu a r1 r2 rd m = ((alu a x y).elim trap fun r => do setReg rd r.1; setFlag r.2) m := by
    simp only [execAlu, getReg, hx, hy, StateT.bind, bind, Option.map_some, Option.bind_some]
    cases alu a x y <;> rfl
  rw [hrun, hx, hy, some.injEq, some.injEq, ← alu_eq_none_iff]
  cases alu a x y with
  | none =>
    have hs : Sound { m with trapped := true } := ⟨hm.1.regs, hm.1.r0, hm.1.tupregs, hm.1.ttop⟩
    exact ⟨_, rfl, hs.onward hm.2.1, by simp⟩
  | some r =>
    have hkeep : Keeps (At (k + 1)) (do setReg rd r.1; setFlag r.2 : Emul W Unit) :=
      .bind (keeps_setReg hd h0 _) fun _ => keeps_run _
    obtain ⟨_, m', h, hm'⟩ := hkeep m hm
    exact ⟨m', h, hm'.1.onward hm'.2.1, by simp [hm'.2.2]⟩

theorem keeps_exec_call (hd : difInstrRd i < difDirNregs) (h0 : difInstrRd i ≠ 0) :
    Keeps (At k) (exec E difo .call i) := by
  refine .bind (keeps_getReg hd) fun _ => .bind keeps_getTupregs fun _ => ?_
  refine .bind (getTtop_le.imp fun _ _ h => h.1) fun _ => .bind (keeps_call _) fun r => ?_
  cases r with
  | none => exact .pure _
  | some v => exact keeps_setReg hd h0 v

theorem keeps_exec_popts : Keeps (At k) (exec E difo .popts i) := by
  refine Total.bind getTtop_le fun n => Total.of_fact fun hn =>
    Keeps.ite (keeps_setTtop (by omega)) (.pure _)

theorem exec_onward {op : DifOp} (hop : difOp (difInstrOp i) = some op) (halu : ∀ a, op ≠ .alu a)
    (hk : k < difo.buf.length) (h : checkInstr difo difDirNregs k i = []) :
    Total (At (k + 1)) (exec E difo op i) fun _ m => Onward difo op k m ∧ m.trapped = false := by
  unfold checkInstr at h
  rw [hop] at h
  cases op <;>
    simp only [append_eq_nil_iff, errIf_eq_nil, checkReg_eq_nil, checkRd_eq_nil, checkLoad_eq_nil] at h
  case branch b => exact exec_branch_onward (by omega) (by omega)
  case ret => exact exec_ret_onward h.2 hk
  case alu a => exact absurd rfl (halu a)
  all_goals apply onward_of_keeps
  case not => exact .bind (keeps_getReg h.1.1) fun _ => keeps_setReg h.2.1 h.2.2 _
  case mov => exact .bind (keeps_getReg h.1.1) fun _ => keeps_setReg h.2.1 h.2.2 _
  case cmp => exact .bind (keeps_getReg h.1.1) fun _ => .bind (keeps_getReg h.1.2) fun _ =>
    keeps_setCc _ _ _ _
  case tst => exact .bind (keeps_getReg h.1) fun _ => keeps_setCc _ _ _ _
  case ld q => exact keeps_execLd q h.1.1 h.2.1 h.2.2
  case rld q => exact keeps_execRld q h.1.1 h.2.1 h.2.2
  case uld q => exact keeps_execUld q h.1.1 h.2.1 h.2.2
  case st q => exact keeps_execSt q h.1.1.1 h.1.2
  case nop => exact .pure _
  case setx => exact .bind (keeps_getInt (by omega)) fun _ => keeps_setReg h.2.1 h.2.2 _
  case sets => exact .bind (keeps_getStr (by omega)) fun _ => keeps_setReg h.2.1 h.2.2 _
  case scmp => exact keeps_execScmp h.1.1 h.1.2
  case ldga =>
    exact .bind (keeps_getReg h.1.2) fun _ => .bind (keeps_call _) fun _ => keeps_setReg h.2.1 h.2.2 _
  case ldgs =>
    exact .ite (.bind (keeps_call _) fun _ => keeps_setReg h.2.1 h.2.2 _)
      (.bind (keeps_call _) fun _ => keeps_setReg h.2.1 h.2.2 _)
  case stgs => exact .bind (keeps_getReg (Nat.lt_of_not_le h.2)) fun _ => keeps_run _
  case ldta => exact .bind (keeps_run _) fun _ => keeps_setReg h.2.1 h.2.2 _
  case ldls => exact .ite (keeps_setReg h.2.1 h.2.2 _) (.bind (keeps_call _) fun _ =>
    keeps_setReg h.2.1 h.2.2 _)
  case stls => exact .bind (keeps_getReg (Nat.lt_of_not_le h.2)) fun _ => keeps_run _
  case ldts => exact .bind (keeps_tlsKeys _) fun _ => .bind (keeps_call _) fun _ =>
    keeps_setReg h.2.1 h.2.2 _
  case stts =>
    exact .bind (keeps_tlsKeys _) fun _ => .bind (keeps_getReg (Nat.lt_of_not_le h.2)) fun _ => keeps_run _
  case call => exact keeps_exec_call h.2.1 h.2.2
  case pushtr => exact keeps_execPushtr h.1.2 h.2
  case pushtv => exact keeps_execPushtv h.2
  case popts => exact keeps_exec_popts
  case flushts => exact keeps_setTtop (Nat.zero_le _)
  case ldgaa =>
    exact .bind (keeps_arrayKeys _ _) fun _ => .bind (keeps_call _) fun _ => keeps_setReg h.2.1 h.2.2 _
  case ldtaa =>
    exact .bind (keeps_arrayKeys _ _) fun _ => .bind (keeps_call _) fun _ => keeps_setReg h.2.1 h.2.2 _
  case stgaa =>
    exact .bind (keeps_arrayKeys _ _) fun _ => .bind (keeps_getReg (Nat.lt_of_not_le h.2)) fun _ =>
      keeps_run _
  case sttaa =>
    exact .bind (keeps_arrayKeys _ _) fun _ => .bind (keeps_getReg (Nat.lt_of_not_le h.2)) fun _ =>
      keeps_run _
  case allocs => exact keeps_execAllocs h.1.1 h.2.1 h.2.2
  case copys => exact keeps_execCopys h.1.1 h.1.2 h.2.1

/-! ## The loop -/

/-- An object whose instructions pass the checks, as they stand. -/
structure Valid (difo : Difo) : Prop where
  instr : ∀ pc i, difo.buf[pc]? = some i → checkInstr difo difDirNregs pc i = []
  ends : difo.buf.length ≠ 0 →
    difOp (difInstrOp (difo.buf.getD (difo.buf.length - 1) 0)) = some .ret

def fetched (difo : Difo) (m : Machine W) : Option DifOp :=
  (difo.buf[m.pc]?).bind fun i => difOp (difInstrOp i)

theorem difOp_ne_none (h : checkInstr difo difDirNregs pc i = []) :
    ∃ op, difOp (difInstrOp i) = some op := by
  cases hop : difOp (difInstrOp i) with
  | some op => exact ⟨op, rfl⟩
  | none =>
    unfold checkInstr at h
    rw [hop] at h
    simp at h

/-- The instruction that is fetched divides `INT64_MIN` by -1. -/
def Traps (difo : Difo) (m : Machine W) : Prop :=
  ∃ i a, difo.buf[m.pc]? = some i ∧ difOp (difInstrOp i) = some (.alu a) ∧ (a = .sdiv ∨ a = .srem) ∧
    m.regs[difInstrR1 i]? = some (BitVec.intMin 64) ∧ m.regs[difInstrR2 i]? = some (-1)

theorem step_onward (hv : Valid difo) (hm : Sound m) (ht : m.trapped = false)
    (hpc : m.pc < difo.buf.length) :
    ∃ op m', fetched difo m = some op ∧ step E difo m = some ((), m') ∧ Onward difo op m.pc m' ∧
      (m'.trapped = true ↔ Traps difo m) := by
  have hi : difo.buf[m.pc]? = some difo.buf[m.pc] := List.getElem?_eq_getElem hpc
  have hcheck := hv.instr _ _ hi
  obtain ⟨op, hop⟩ := difOp_ne_none hcheck
  have hm' : At (m.pc + 1) { m with pc := m.pc + 1 } :=
    ⟨⟨hm.regs, hm.r0, hm.tupregs, hm.ttop⟩, rfl, ht⟩
  have hfetched : fetched difo m = some op := by
    unfold fetched
    rwa [hi]
  have hstep : step E difo m = exec E difo op difo.buf[m.pc] { m with pc := m.pc + 1 } := by
    simp [step, hi, hop]
  by_cases halu : ∃ a, op = .alu a
  · obtain ⟨a, rfl⟩ := halu
    have hregs := hcheck
    unfold checkInstr at hregs
    rw [hop] at hregs
    simp only [append_eq_nil_iff, checkReg_eq_nil, checkRd_eq_nil] at hregs
    obtain ⟨⟨h1, h2⟩, hd, h0⟩ := hregs
    obtain ⟨m', hrun, honward, htrap⟩ := execAlu_onward difo a h1 h2 hd h0 hm'
    refine ⟨_, m', hfetched, hstep.trans hrun, honward, htrap.trans ⟨fun h => ⟨_, a, hi, hop, h⟩, ?_⟩⟩
    rintro ⟨i, b, hi', hop', h⟩
    cases hi.symm.trans hi'
    cases hop.symm.trans hop'
    exact h
  · obtain ⟨u, m', hrun, honward, hnot⟩ :=
      exec_onward (E := E) hop (fun a h => halu ⟨a, h⟩) hpc hcheck _ hm'
    refine ⟨op, m', hfetched, hstep.trans hrun, honward, iff_of_false (by simp [hnot]) ?_⟩
    rintro ⟨i, b, hi', hop', -⟩
    cases hi.symm.trans hi'
    exact halu ⟨b, some.inj (hop.symm.trans hop')⟩

theorem Onward.ret (hv : Valid difo) {op : DifOp} {m' : Machine W} (hop : fetched difo m = some op)
    (hpc : m.pc < difo.buf.length) (h : Onward difo op m.pc m') (hout : difo.buf.length ≤ m'.pc) :
    op = .ret := by
  obtain ⟨-, -, h | h | h⟩ := h
  · omega
  · exact h
  have hlast : m.pc = difo.buf.length - 1 := by omega
  have hends := hv.ends (by omega)
  unfold fetched at hop
  rw [getD_eq_getElem?_getD, ← hlast] at hends
  rw [List.getElem?_eq_getElem hpc] at hop hends
  rw [getD_some] at hends
  rw [bind_some, hends] at hop
  exact (some.inj hop).symm

/-- A run from `m`: the states `ms` in which an instruction was fetched, and the last one. -/
structure Runs (difo : Difo) (m : Machine W) (ms : List (Machine W)) (last : Machine W) : Prop where
  increasing : (ms.map Machine.pc).Pairwise (· < ·)
  inside : ∀ s ∈ ms, m.pc ≤ s.pc ∧ s.pc < difo.buf.length
  sound : ∀ s ∈ ms, Sound s
  last_sound : Sound last
  trapped : last.trapped = true ↔ m.trapped = true ∨ ∃ s ∈ ms, Traps difo s
  halted : last.cpu.fault = true ∨ last.trapped = true ∨ (ms = [] ∧ difo.buf.length ≤ m.pc) ∨
    ∃ s, ms.getLast? = some s ∧ fetched difo s = some .ret

theorem Runs.nil (hm : Sound m)
    (h : ¬ (m.pc < difo.buf.length ∧ (!m.cpu.fault) = true ∧ (!m.trapped) = true)) :
    Runs difo m [] m where
  increasing := .nil
  inside := by simp
  sound := by simp
  last_sound := hm
  trapped := by simp
  halted := by
    by_cases hf : m.cpu.fault = true
    · exact .inl hf
    by_cases ht : m.trapped = true
    · exact .inr (.inl ht)
    · refine .inr (.inr (.inl ⟨rfl, ?_⟩))
      by_contra hlt
      exact h ⟨by omega, by simpa using hf, by simpa using ht⟩

theorem Runs.cons (hv : Valid difo) {op : DifOp} {m' last : Machine W} {ms : List (Machine W)}
    (hm : Sound m) (ht : m.trapped = false) (hpc : m.pc < difo.buf.length)
    (hop : fetched difo m = some op) (ho : Onward difo op m.pc m')
    (htrap : m'.trapped = true ↔ Traps difo m) (h : Runs difo m' ms last) :
    Runs difo m (m :: ms) last where
  increasing := by
    refine pairwise_cons.2 ⟨?_, h.increasing⟩
    intro pc hpc'
    obtain ⟨s, hs, rfl⟩ := mem_map.1 hpc'
    exact ho.2.1.trans_le (h.inside s hs).1
  inside := by
    intro s hs
    rcases mem_cons.1 hs with rfl | hs
    · exact ⟨le_rfl, hpc⟩
    · have h1 := h.inside s hs
      have h2 := ho.2.1
      omega
  sound := by
    intro s hs
    rcases mem_cons.1 hs with rfl | hs
    · exact hm
    · exact h.sound s hs
  last_sound := h.last_sound
  trapped := by
    rw [h.trapped, htrap]
    simp [ht]
  halted := by
    rcases h.halted with hf | ht | ⟨rfl, hout⟩ | ⟨s, hs, hret⟩
    · exact .inl hf
    · exact .inr (.inl ht)
    · rw [ho.ret hv hop hpc hout] at hop
      exact .inr (.inr (.inr ⟨m, rfl, hop⟩))
    · refine .inr (.inr (.inr ⟨s, ?_, hret⟩))
      rw [getLast?_cons, hs]
      rfl

theorem loop_runs (hv : Valid difo) : ∀ n (m : Machine W), Sound m → difo.buf.length - m.pc ≤ n →
    ∃ ms last, loop E difo n m = some (ms, last) ∧ Runs difo m ms last := by
  intro n
  induction n with
  | zero =>
    intro m hm hn
    have hstop : ¬ (m.pc < difo.buf.length ∧ (!m.cpu.fault) = true ∧ (!m.trapped) = true) :=
      fun h => by omega
    exact ⟨[], m, if_neg hstop, .nil hm hstop⟩
  | succ n ih =>
    intro m hm hn
    by_cases hgo : m.pc < difo.buf.length ∧ (!m.cpu.fault) = true ∧ (!m.trapped) = true
    · have ht : m.trapped = false := by simpa using hgo.2.2
      obtain ⟨op, m', hop, hstep, ho, htrap⟩ := step_onward hv hm ht hgo.1
      have hlt := ho.2.1
      obtain ⟨ms, last, hloop, hruns⟩ := ih m' ho.1 (by omega)
      refine ⟨m :: ms, last, ?_, hruns.cons hv hm ht hgo.1 hop ho htrap⟩
      unfold loop
      rw [if_pos hgo, hstep]
      show (loop E difo n m').bind _ = _
      rw [hloop]
      rfl
    · exact ⟨[], m, if_neg hgo, .nil hm hgo⟩

/-! ## The rewritten instructions -/

section Fields

variable {op r1 r2 d : ℕ}

theorem difInstrFmt_eq (h1 : r1 < 2 ^ 8) (h2 : r2 < 2 ^ 8) (hd : d < 2 ^ 8) :
    difInstrFmt op r1 r2 d = op * 2 ^ 24 + r1 * 2 ^ 16 + r2 * 2 ^ 8 + d := by
  have e0 : ∀ {a b n : ℕ}, b < 2 ^ n → a <<< n ||| b = a * 2 ^ n + b := by
    intro a b n h
    rw [← shiftLeft_add_eq_or_of_lt h, shiftLeft_eq]
  have e1 : op <<< 24 ||| r1 <<< 16 = (op * 2 ^ 8 + r1) <<< 16 := by
    rw [e0 (by rw [shiftLeft_eq]; omega)]
    simp only [shiftLeft_eq]
    ring
  have e2 : (op * 2 ^ 8 + r1) <<< 16 ||| r2 <<< 8 = ((op * 2 ^ 8 + r1) * 2 ^ 8 + r2) <<< 8 := by
    rw [e0 (by rw [shiftLeft_eq]; omega)]
    simp only [shiftLeft_eq]
    ring
  unfold difInstrFmt
  rw [e1, e2, e0 hd]
  ring

theorem and_ff (n : ℕ) : n &&& 0xff = n % 2 ^ 8 := and_two_pow_sub_one_eq_mod n 8

theorem difInstrOp_fmt (h : op < 2 ^ 8) (h1 : r1 < 2 ^ 8) (h2 : r2 < 2 ^ 8) (hd : d < 2 ^ 8) :
    difInstrOp (difInstrFmt op r1 r2 d) = op := by
  rw [difInstrFmt_eq h1 h2 hd, difInstrOp, and_ff, shiftRight_eq_div_pow]
  omega

section

variable (h1 : r1 < 2 ^ 8) (h2 : r2 < 2 ^ 8) (hd : d < 2 ^ 8)
include h1 h2 hd

theorem difInstrR1_fmt : difInstrR1 (difInstrFmt op r1 r2 d) = r1 := by
  rw [difInstrFmt_eq h1 h2 hd, difInstrR1, and_ff, shiftRight_eq_div_pow]
  omega

theorem difInstrR2_fmt : difInstrR2 (difInstrFmt op r1 r2 d) = r2 := by
  rw [difInstrFmt_eq h1 h2 hd, difInstrR2, and_ff, shiftRight_eq_div_pow]
  omega

theorem difInstrRd_fmt : difInstrRd (difInstrFmt op r1 r2 d) = d := by
  rw [difInstrFmt_eq h1 h2 hd, difInstrRd, and_ff]
  omega

end

end Fields

theorem difInstrR1_lt (i : ℕ) : difInstrR1 i < 2 ^ 8 := by
  rw [difInstrR1, and_ff]
  exact mod_lt _ (by decide)

theorem difInstrRd_lt (i : ℕ) : difInstrRd i < 2 ^ 8 := by
  rw [difInstrRd, and_ff]
  exact mod_lt _ (by decide)

variable {q : LdKind}

theorem difOp_rld (h : difOp n = some (.ld q)) : n < 35 ∧ difOp (n + 71 - 28) = some (.rld q) := by
  have hlt : n < 78 := by
    by_contra hge
    obtain ⟨j, rfl⟩ := Nat.exists_eq_add_of_le' (Nat.le_of_not_lt hge)
    cases h
  have hall : ∀ n < 78, difOp n = some (.ld q) → n < 35 ∧ difOp (n + 71 - 28) = some (.rld q) := by
    cases q <;> decide
  exact hall n hlt h

variable {dp : Difo}

theorem checkInstr_ld (hop : difOp (difInstrOp i) = some (.ld q)) : checkInstr dp nregs pc i =
      checkLoad nregs pc (difInstrR1 i) (difInstrR2 i) (difInstrRd i) := by
  unfold checkInstr
  rw [hop]

theorem checkInstr_rld (hop : difOp (difInstrOp i) = some (.rld q)) : checkInstr dp nregs pc i =
      checkLoad nregs pc (difInstrR1 i) (difInstrR2 i) (difInstrRd i) := by
  unfold checkInstr
  rw [hop]

theorem difInstrLoad_fields {j : ℕ} (hn : n < 2 ^ 8)
    (hj : difInstrLoad n (difInstrR1 i) (difInstrRd i) = j) :
    difInstrOp j = n ∧ difInstrR1 j = difInstrR1 i ∧ difInstrR2 j = 0 ∧ difInstrRd j = difInstrRd i := by
  subst hj
  have h1 := difInstrR1_lt i
  have hd := difInstrRd_lt i
  have h2 : 0 < 2 ^ 8 := by decide
  exact ⟨difInstrOp_fmt hn h1 h2 hd, difInstrR1_fmt h1 h2 hd, difInstrR2_fmt h1 h2 hd,
    difInstrRd_fmt h1 h2 hd⟩

theorem checkInstr_rewrite (kcheckload : Bool) (h : checkInstr dp nregs pc i = []) :
    checkInstr dp nregs pc (rewriteInstr kcheckload i) = [] := by
  unfold rewriteInstr
  split
  · rename_i q hop
    split
    · obtain ⟨hlt, hrld⟩ := difOp_rld hop
      generalize hj : difInstrLoad _ _ _ = j
      obtain ⟨hn, h1, h2, hd⟩ := difInstrLoad_fields (by omega) hj
      rw [checkInstr_ld hop, checkLoad_eq_nil] at h
      rw [checkInstr_rld (hn ▸ hrld), h1, h2, hd, checkLoad_eq_nil]
      exact ⟨⟨h.1.1, rfl⟩, h.2⟩
    · exact h
  · exact h

/-! ## The passes -/

/-- The objects differ in their instructions at most, and have equally many. -/
structure SameTables (dp dp' : Difo) : Prop where
  length : dp'.buf.length = dp.buf.length
  inttab : dp'.inttab = dp.inttab
  strlen : dp'.strlen = dp.strlen

theorem checkInstr_congr {dp' : Difo} (h : SameTables dp dp') (nregs pc i : ℕ) :
    checkInstr dp' nregs pc i = checkInstr dp nregs pc i := by
  unfold checkInstr
  rw [h.length, h.inttab, h.strlen]

theorem sameTables_set (dp : Difo) (pc i : ℕ) (d : Bool) :
    SameTables dp { dp with buf := dp.buf.set pc i, destructive := d } :=
  ⟨length_set, rfl, rfl⟩

/-- What the first pass leaves, if it finds nothing: the instructions before `pc` as they are,
those from `pc` on rewritten and without an error. -/
theorem validateInstrs_nil {kcheckload : Bool} : ∀ {n pc : ℕ} {dp dp' : Difo},
    validateInstrs nregs kcheckload n pc dp = ([], dp') →
    SameTables dp dp' ∧ ∀ q i, dp'.buf[q]? = some i →
      (pc ≤ q ∧ q < pc + n → checkInstr dp nregs q i = []) ∧ (q < pc → dp.buf[q]? = some i) := by
  intro n
  induction n with
  | zero =>
    intro pc dp dp' h
    obtain rfl : dp = dp' := congrArg snd h
    exact ⟨⟨rfl, rfl, rfl⟩, fun q i hi => ⟨fun hq => by omega, fun _ => hi⟩⟩
  | succ n ih =>
    intro pc dp dp' h
    unfold validateInstrs at h
    by_cases herr : checkInstr dp nregs pc (dp.buf.getD pc 0) = []
    · rw [if_pos herr] at h
      obtain ⟨htab, hbuf⟩ := ih h
      have hlen := htab.length
      rw [length_set] at hlen
      refine ⟨⟨hlen, htab.inttab, htab.strlen⟩, fun q i hi => ⟨fun hq => ?_, fun hq => ?_⟩⟩
      · rcases Nat.eq_or_lt_of_le hq.1 with rfl | hlt
        · have hset := (hbuf pc i hi).2 (by omega)
          have hrw := checkInstr_rewrite kcheckload herr
          grind
        · have hlater := (hbuf q i hi).1 (by omega)
          refine Eq.trans (Eq.symm ?_) hlater
          exact checkInstr_congr (sameTables_set dp pc _ _) nregs q i
      · have hset := (hbuf q i hi).2 (by omega)
        rwa [List.getElem?_set_ne (by omega)] at hset
    · rw [if_neg herr] at h
      exact absurd (congrArg fst h) herr

theorem valid_of_validate {dp' : Difo} {vs : VarState} {kcheckload : Bool}
    (h : dtraceDifoValidate dp vs difDirNregs kcheckload = ([], dp')) :
    Valid dp' ∧ dp'.buf.length = dp.buf.length := by
  unfold dtraceDifoValidate at h
  rcases hpass : validateInstrs difDirNregs kcheckload dp.buf.length 0
    { dp with destructive := false } with ⟨err, dp1⟩
  rw [hpass] at h
  obtain ⟨hfst, rfl⟩ := mk.inj h
  have hnil : err ++ checkEnd dp1 = [] := by
    by_contra hne
    rw [if_neg hne] at hfst
    exact hne hfst
  obtain ⟨rfl, hend⟩ := append_eq_nil_iff.1 hnil
  obtain ⟨htab, hbuf⟩ := validateInstrs_nil hpass
  have hlen : dp1.buf.length = dp.buf.length := htab.length
  refine ⟨⟨fun pc i hi => ?_, fun hne => ?_⟩, hlen⟩
  · have hlt : pc < dp1.buf.length := (List.getElem?_eq_some_iff.1 hi).1
    rw [checkInstr_congr htab]
    exact (hbuf pc i hi).1 (by omega)
  · unfold checkEnd at hend
    simp only [append_eq_nil_iff, errIf_eq_nil] at hend
    by_contra hret
    exact hend.1 ⟨hne, hret⟩

/-! ## Whole runs -/

theorem initial_sound {regs : List Word} {tupregs : List Key} (cpu : Cpu W)
    (hregs : regs.length = difDirNregs) (htup : tupregs.length = difDtrNregs + 2) :
    Sound (initial regs tupregs cpu) where
  regs := by
    show (regs.set 0 0).length = _
    rwa [length_set]
  r0 := by
    show (regs.set 0 0)[0]? = _
    rw [List.getElem?_set_self (by rw [hregs]; decide)]
  tupregs := htup
  ttop := Nat.zero_le _

/-- Functions that do nothing. -/
def idleExt : Ext Unit where
  load := fun _ _ c => (0, c)
  fuword := fun _ _ c => (0, c)
  store := fun _ _ _ c => c
  canstore := fun _ _ _ => true
  canload := fun _ _ c => (true, c)
  strcanload := fun _ c => (true, c)
  strncmp := fun _ _ c => (0, c)
  strlen := fun _ _ c => (0, c)
  strsizeDefault := 256
  bcopy := fun _ _ _ c => c
  bzero := fun _ _ c => c
  difVariable := fun _ _ c => (0, c)
  difSubr := fun _ _ _ _ c => (none, c)
  ldGlobal := fun _ c => (0, c)
  stGlobal := fun _ _ c => c
  ldLocal := fun _ c => (0, c)
  stLocal := fun _ _ c => c
  tlsThrkey := fun _ => 1
  ldDynvar := fun _ _ _ c => (0, c)
  stDynvar := fun _ _ _ _ c => c

def idleCpu : Cpu Unit where
  flags := 0
  illval := 0
  scratchBase := 0
  scratchSize := 0
  scratchPtr := 0
  world := ()

/-- An object with these instructions and no tables. -/
def textOnly (buf : List ℕ) : Difo where
  buf := buf
  inttab := []
  strtab := 0
  strlen := 0
  vartab := []
  rtype := ⟨0, 8⟩
  destructive := false

end Osol.Dtrace
