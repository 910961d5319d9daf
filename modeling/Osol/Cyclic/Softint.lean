import Osol.Cyclic.Basic

/-!
# `cyclic_softint` against the high level

The soft interrupts of a CPU take one access to memory at a time. In between, cyclics expire,
and the thread that holds `cpu_lock` adds and removes cyclics and resizes the arrays. Its cross
calls are at the high level, and so are expirations: they are one step each.
-/

namespace Osol.Cyc

open Function

/-! ## The soft interrupt -/

/-- The access that `cyclic_softint` makes next. -/
inductive SoftPc where
  | idle
  /-- `cyclics = cpu->cyp_cyclics` -/
  | start
  /-- `soft = softbuf->cys_soft` -/
  | top
  /-- `consndx = pc->cypc_consndx` -/
  | readCons
  /-- `sizemask = pc->cypc_sizemask` -/
  | readMask
  /-- `consndx != pc->cypc_prodndx` -/
  | test
  /-- `cyclic = &cyclics[buf[consmasked]]` -/
  | readNdx
  /-- `handler = cyclic->cy_handler` -/
  | readHandler
  /-- `arg = cyclic->cy_arg` -/
  | readArg
  /-- `(*handler)(arg)` -/
  | call
  /-- `pend = cyclic->cy_pend` -/
  | reread
  /-- `cpu->cyp_state == CYS_REMOVING` -/
  | checkState
  /-- `cyclics = cpu->cyp_cyclics` after a resize -/
  | reloadCyc
  /-- `cyclic = &cyclics[buf[consmasked]]` after a resize -/
  | reloadNdx
  /-- `cas32(&cyclic->cy_pend, pend, npend)` -/
  | cas
  /-- `handler = cyclic->cy_handler` in `cyclic_remove_pend` -/
  | rpendHandler
  /-- `arg = cyclic->cy_arg` in `cyclic_remove_pend` -/
  | rpendArg
  /-- `rpend = cpu->cyp_rpend - 1` -/
  | rpendRead
  /-- The loop of `cyclic_remove_pend`, and `sema_v` at its end -/
  | rpendCall
  /-- `pc->cypc_consndx = ++consndx` -/
  | advance
  /-- `soft != softbuf->cys_hard` -/
  | checkHard
  /-- `cyclics = cpu->cyp_cyclics`, with the buffer switched -/
  | switchCyc
  /-- `softbuf->cys_hard`, to be written -/
  | readHard
  /-- `softbuf->cys_soft = softbuf->cys_hard` -/
  | writeSoft
  /-- `lev = cpu->cyp_modify_levels` -/
  | readLev
  /-- `cas32(&cpu->cyp_modify_levels, lev, nlev)` -/
  | casLev
  /-- `sema_v`, or the post to the next level -/
  | post
  deriving DecidableEq

/-- The variables of `cyclic_softint`. A pointer to an array of cyclics is the number of
resizes before it. -/
structure Thread where
  pc : SoftPc
  cyclics : ℕ
  soft : Bool
  consndx : ℕ
  sizemask : ℕ
  ndx : ℕ
  handler : ℕ
  arg : ℕ
  pend : ℕ
  /-- What is left of `rpend`. -/
  count : ℕ
  hard : Bool
  lev : ℕ
  resized : Bool

def Thread.called : Thread where
  pc := .start
  cyclics := 0
  soft := false
  consndx := 0
  sizemask := 0
  ndx := 0
  handler := 0
  arg := 0
  pend := 0
  count := 0
  hard := false
  lev := 0
  resized := false

/-! ## The system -/

/-- The thread that holds `cpu_lock`. -/
inductive Modifier where
  | idle
  /-- In `cyclic_expand`, with the state set. -/
  | expanding
  /-- With the new buffers set up. -/
  | expandReady
  /-- At `sema_p`, after the cross call. -/
  | expandWait
  /-- In `cyclic_remove_here`, with the state set. -/
  | removing (ndx : ℕ) (wait : Bool)
  /-- At `sema_p`. -/
  | removeWait (ndx : ℕ)
  /-- About to leave; nothing was removed. -/
  | removeRefused
  /-- About to leave. -/
  | removeEnd
  deriving DecidableEq

structure Shared where
  cpu : CycCpu
  /-- The number of resizes. -/
  gen : ℕ
  /-- The array before the last resize, as long as it is not freed. -/
  old : Option (ℕ → Cyclic)
  modifier : Modifier
  /-- How often the cyclic of an index expired since it was added. -/
  expired : ℕ → ℕ
  /-- How often its handler was called. -/
  handled : ℕ → ℕ
  /-- Its `cy_pend` was not always below `2 ^ 31`. -/
  large : ℕ → Bool
  /-- How often `cyp_modify_wait` was posted for the last resize. -/
  posts : ℕ

namespace Shared

variable (s : Shared)

def array (g : ℕ) : Option (ℕ → Cyclic) :=
  if g = s.gen then some s.cpu.cyclics else if g + 1 = s.gen then s.old else none

/-- A store to `cy_pend` through a pointer. -/
def setPend (g ndx pend : ℕ) : Shared :=
  if g = s.gen then
    { s with cpu := s.cpu.setCyclic ndx { s.cpu.cyclics ndx with pend := pend } }
  else { s with old := s.old.map fun a => update a ndx { a ndx with pend := pend } }

/-- A call counts for the cyclic at `ndx` if it is of its handler. -/
def count (ndx handler arg : ℕ) : Shared :=
  if (s.cpu.cyclics ndx).handler = handler ∧ (s.cpu.cyclics ndx).arg = arg then
    { s with handled := update s.handled ndx (s.handled ndx + 1) }
  else s

def semaV : Shared := { s with cpu := { s.cpu with modifyWait := s.cpu.modifyWait + 1 } }

def setSoftbuf (l : SoftLevel) (sb : SoftBuf) : Shared :=
  { s with cpu := { s.cpu with softbuf := update s.cpu.softbuf l sb } }

end Shared

/-- `npend`, an `int`. -/
def npend (pend : ℕ) : BitVec 32 := BitVec.ofNat 32 pend - 1

theorem toNat_npend {pend : ℕ} (h0 : 0 < pend) (h : pend < 2 ^ 32) : (npend pend).toNat = pend - 1 := by
  rw [npend, BitVec.toNat_sub, BitVec.toNat_ofNat, show (1 : BitVec 32).toNat = 1 from rfl]
  omega

theorem npend_pos_iff {pend : ℕ} (h0 : 0 < pend) (h : pend < 2 ^ 32) :
    0 < (npend pend).toInt ↔ 2 ≤ pend ∧ pend ≤ 2 ^ 31 := by
  rw [BitVec.toInt_eq_toNat_cond, toNat_npend h0 h]
  split <;> omega

/-- One access of `cyclic_softint` at the level `l`. -/
def softStep (s : Shared) (l : SoftLevel) (t : Thread) : Option (Shared × Thread) :=
  let softbuf := s.cpu.softbuf l
  let pc := softbuf.buf t.soft
  match t.pc with
  | .idle => none
  | .start => some (s, { t with cyclics := s.gen, pc := .top })
  | .top => some (s, { t with soft := softbuf.soft, pc := .readCons })
  | .readCons => some (s, { t with consndx := pc.consndx, pc := .readMask })
  | .readMask => some (s, { t with sizemask := pc.sizemask, pc := .test })
  | .test => some (s, { t with pc := if t.consndx = pc.prodndx then .checkHard else .readNdx })
  | .readNdx => some (s, { t with ndx := pc.buf (t.consndx &&& t.sizemask), pc := .readHandler })
  | .readHandler =>
    (s.array t.cyclics).map fun a => (s, { t with handler := (a t.ndx).handler, pc := .readArg })
  | .readArg => (s.array t.cyclics).map fun a => (s, { t with arg := (a t.ndx).arg, pc := .call })
  | .call => some (s.count t.ndx t.handler t.arg, { t with pc := .reread })
  | .reread =>
    (s.array t.cyclics).map fun a =>
      (s, { t with
        pend := (a t.ndx).pend % 2 ^ 32
        pc := if (a t.ndx).pend % 2 ^ 32 = 0 then .checkState else .cas })
  | .checkState =>
    some (s, { t with pc := if s.cpu.state = .removing then .rpendHandler else .reloadCyc })
  | .reloadCyc => some (s, { t with cyclics := s.gen, pc := .reloadNdx })
  | .reloadNdx => some (s, { t with ndx := pc.buf (t.consndx &&& t.sizemask), pc := .reread })
  | .cas =>
    (s.array t.cyclics).map fun a =>
      if (a t.ndx).pend = t.pend then
        (s.setPend t.cyclics t.ndx (npend t.pend).toNat,
          { t with pc := if 0 < (npend t.pend).toInt then .call else .advance })
      else (s, { t with pc := .reread })
  | .rpendHandler =>
    (s.array t.cyclics).map fun a => (s, { t with handler := (a t.ndx).handler, pc := .rpendArg })
  | .rpendArg =>
    (s.array t.cyclics).map fun a => (s, { t with arg := (a t.ndx).arg, pc := .rpendRead })
  | .rpendRead =>
    some (s, { t with count := (s.cpu.rpend + (2 ^ 32 - 1)) % 2 ^ 32, pc := .rpendCall })
  | .rpendCall =>
    if t.count = 0 then some (s.semaV, { t with pc := .advance })
    else some (s.count t.ndx t.handler t.arg, { t with count := t.count - 1 })
  | .advance =>
    let softbuf := { softbuf with
      buf := update softbuf.buf t.soft { pc with consndx := t.consndx + 1 } }
    some (s.setSoftbuf l softbuf, { t with consndx := t.consndx + 1, pc := .test })
  | .checkHard =>
    some (s, { t with
      pc := if t.soft ≠ softbuf.hard then .switchCyc
        else if t.resized then .readLev else .idle })
  | .switchCyc => some (s, { t with cyclics := s.gen, pc := .readHard })
  | .readHard => some (s, { t with hard := softbuf.hard, pc := .writeSoft })
  | .writeSoft =>
    some (s.setSoftbuf l { softbuf with soft := t.hard }, { t with resized := true, pc := .top })
  | .readLev => some (s, { t with lev := s.cpu.modifyLevels, pc := .casLev })
  | .casLev =>
    if s.cpu.modifyLevels = t.lev then
      some ({ s with cpu := { s.cpu with modifyLevels := t.lev + 1 } }, { t with pc := .post })
    else some (s, { t with pc := .readLev })
  | .post =>
    if t.lev + 1 = 2 then some ({ s.semaV with posts := s.posts + 1 }, { t with pc := .idle })
    else if l = .lock then some ({ s with cpu := s.cpu.softint .low }, { t with pc := .idle })
    else some (s, { t with pc := .idle })

/-! ## What comes in between -/

inductive Event where
  /-- A soft interrupt is taken, posted or not. -/
  | start (l : SoftLevel)
  /-- It makes an access. -/
  | soft (l : SoftLevel)
  /-- `cyclic_expire`, from `cyclic_fire`. -/
  | expire (ndx : ℕ)
  | add (hdlr : Handler) (cytWhen cytInterval : ℤ) (flags : BitVec 16) (now : ℤ)
  | expandBegin
  | expandSetup
  | expandXcall
  | expandEnd
  | removeBegin (ndx : ℕ) (wait : Bool)
  | removeXcall
  | removeWake
  | removeEnd

def expireStep (s : Shared) (ndx : ℕ) : Option Shared :=
  match (s.cpu.cyclics ndx).level with
  | .high => none
  | .soft l =>
    if ndx < s.cpu.size ∧ (s.cpu.cyclics ndx).free = false then
      let cpu := expireSoft s.cpu l ndx
      some { s with
        cpu := cpu
        expired := update s.expired ndx (s.expired ndx + 1)
        large := update s.large ndx
          (s.large ndx || decide (2 ^ 31 ≤ (cpu.cyclics ndx).pend)) }
    else none

def newBuffers (cpu : CycCpu) : SoftLevel → SoftBuf := fun l =>
  let softbuf := cpu.softbuf l
  let pc := softbuf.buf (!softbuf.hard)
  { softbuf with
    buf := update softbuf.buf (!softbuf.hard)
      { pc with prodndx := 0, consndx := 0, sizemask := 2 * cpu.size - 1 } }

/-- The steps of the thread that holds `cpu_lock`. -/
def modifierStep (s : Shared) : Event → Option Shared
  | .add hdlr cytWhen cytInterval flags now =>
    if s.modifier = .idle ∧ s.cpu.nelems < s.cpu.size ∧ 0 < cytInterval ∧ flags &&& cyfFree = 0 then
      let ndx := s.cpu.heap s.cpu.nelems
      some { s with
        cpu := (cyclicAddXcall s.cpu hdlr cytWhen cytInterval flags now).1
        expired := update s.expired ndx 0
        handled := update s.handled ndx 0
        large := update s.large ndx false }
    else none
  | .expandBegin =>
    if s.modifier = .idle then
      some { s with cpu := { s.cpu with state := .expanding }, modifier := .expanding }
    else none
  | .expandSetup =>
    if s.modifier = .expanding then
      some { s with
        cpu := { s.cpu with softbuf := newBuffers s.cpu, modifyLevels := 0 }
        modifier := .expandReady
        posts := 0 }
    else none
  | .expandXcall =>
    if s.modifier = .expandReady then
      some { s with
        cpu := cyclicExpandXcall s.cpu
        gen := s.gen + 1
        old := some fun i => { s.cpu.cyclics i with pend := 0 }
        modifier := .expandWait }
    else none
  | .expandEnd =>
    if s.modifier = .expandWait ∧ s.cpu.modifyWait ≠ 0 then
      some { s with
        cpu := { s.cpu with modifyWait := s.cpu.modifyWait - 1, state := .online }
        old := none
        modifier := .idle }
    else none
  | .removeBegin ndx wait =>
    if s.modifier = .idle then
      some { s with cpu := { s.cpu with state := .removing }, modifier := .removing ndx wait }
    else none
  | .removeXcall =>
    match s.modifier with
    | .removing ndx wait =>
      (cyclicRemoveXcall s.cpu ndx wait).map fun (cpu, out) =>
        { s with
          cpu := cpu
          modifier :=
            if out.wait ≠ wait then .removeRefused
            else if cpu.rpend ≠ 0 then .removeWait ndx else .removeEnd }
    | _ => none
  | .removeWake =>
    match s.modifier with
    | .removeWait _ =>
      if s.cpu.modifyWait ≠ 0 then
        some { s with
          cpu := { s.cpu with modifyWait := s.cpu.modifyWait - 1 }
          modifier := .removeEnd }
      else none
    | _ => none
  | .removeEnd =>
    match s.modifier with
    | .removeRefused =>
      some { s with cpu := { s.cpu with state := .online }, modifier := .idle }
    | .removeEnd =>
      some { s with cpu := { s.cpu with rpend := 0, state := .online }, modifier := .idle }
    | _ => none
  | _ => none

/-- The system: what is shared, and a soft interrupt for each level. -/
structure Sys where
  shared : Shared
  thread : SoftLevel → Thread

def next (s : Sys) : Event → Option Sys
  | .start l =>
    if (s.thread l).pc = .idle then
      let posted := update s.shared.cpu.posted l false
      some
        { shared := { s.shared with cpu := { s.shared.cpu with posted := posted } }
          thread := update s.thread l .called }
    else none
  | .soft l =>
    (softStep s.shared l (s.thread l)).map fun r =>
      { shared := r.1, thread := update s.thread l r.2 }
  | .expire ndx => (expireStep s.shared ndx).map fun sh => { s with shared := sh }
  | e => (modifierStep s.shared e).map fun sh => { s with shared := sh }

/-- Nothing has happened yet. -/
def Sys.initial : Sys where
  shared :=
    { cpu := configured
      gen := 0
      old := none
      modifier := .idle
      expired := fun _ => 0
      handled := fun _ => 0
      large := fun _ => false
      posts := 0 }
  thread := fun _ => { Thread.called with pc := .idle }

end Osol.Cyc
