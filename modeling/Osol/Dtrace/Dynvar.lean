import Osol.Dtrace.Emulate
import Osol.Lib.Buffer
import Osol.Lib.Places

/-!
# Dynamic variables

`dtrace_dstate_init` divides the dynamic variable space into a hash table and chunks of one size.
`dtrace_dynvar` finds the variable for a list of keys on a hash chain, takes a chunk for a new
one from a free list, or gives one back to a dirty list; `dtrace_dynvar_clean` brings the dirty
chunks back in three steps, between which the CPUs are synchronised.

The linked lists of chunks, the hash chains and those of the CPUs, are lists of addresses here.
An operation is one step. The bytes of a key that is passed by reference are what they are when
the operation starts, and none if they may not be loaded or the load faults. Addresses and sizes
in the space do not wrap around.
-/

namespace Osol.Dynvar

open Osol.Lib Osol.Dtrace Function

/-! ## Variables -/

/-- A key: a value, or the bytes that are referred to. -/
inductive KeyData where
  | val (v : Word)
  | ref (bytes : List Byte)
  deriving DecidableEq

/-- `dtrace_dynvar_t`, but for the link. -/
structure Dvar where
  hashval : Word
  keys : List KeyData
  /-- `dtdv_data`. -/
  data : ℕ
  deriving DecidableEq

/-- The lists a chunk can be on. -/
inductive Place where
  | chain (bucket : ℕ)
  | free (cpu : ℕ)
  | dirty (cpu : ℕ)
  | rinsing (cpu : ℕ)
  | clean (cpu : ℕ)
  deriving DecidableEq

inductive DsState where
  | clean
  | empty
  | dirty
  | rinsing
  deriving DecidableEq

/-- The counters of a CPU: `dtdsc_drops`, `dtdsc_dirty_drops`, `dtdsc_rinsing_drops`. -/
inductive DropKind where
  | drops
  | dirty
  | rinsing
  deriving DecidableEq

/-- `dtrace_dstate_t` with its hash table, its chunks and what it has for each CPU. -/
structure Dstate where
  base : ℕ
  size : ℕ
  hashsize : ℕ
  chunksize : ℕ
  state : DsState
  lists : Place → List ℕ
  /-- `dtdh_lock` of a bucket. -/
  lock : ℕ → ℕ
  /-- The variable at an address. -/
  dvar : ℕ → Dvar
  drops : DropKind → ℕ → ℕ

/-! ## `dtrace_dstate_init` -/

/-- `sizeof (dtrace_dynhash_t)`, `sizeof (dtrace_dynvar_t)`, `sizeof (dtrace_key_t)`. -/
def dynhashSize : ℕ := 64
def dynvarSize : ℕ := 48
def keyBytes : ℕ := 16

/-- `DTRACE_DYNHASH_FREE`, `DTRACE_DYNHASH_SINK`, `DTRACE_DYNHASH_VALID`. -/
def dynhashFree : Word := 0
def dynhashSink : Word := 1
def dynhashValid : Word := 2

def hashStep (h v : Word) : Word :=
  let h := h + v
  let h := h + (h <<< 10)
  h ^^^ (h >>> 6)

def hashKey (h : Word) : KeyData → Word
  | .val v =>
    let h := hashStep h ((v >>> 48) &&& 0xffff)
    let h := hashStep h ((v >>> 32) &&& 0xffff)
    let h := hashStep h ((v >>> 16) &&& 0xffff)
    hashStep h (v &&& 0xffff)
  | .ref bytes => bytes.foldl (fun h b => hashStep h (b.setWidth 64)) h

variable (keys : List KeyData)

/-- The hash value of the keys, which is not one of the sentinels. -/
@[irreducible] def hashOf : Word :=
  let h := keys.foldl hashKey dynhashValid
  let h := h + (h <<< 3)
  let h := h ^^^ (h >>> 11)
  let h := h + (h <<< 15)
  if h = dynhashFree ∨ h = dynhashSink then dynhashValid else h

/-! ## `dtrace_dynvar` -/

inductive DynvarOp where
  | alloc
  | noalloc
  | dealloc
  deriving DecidableEq

/-- What a key stands for; `loads` are the bytes that it refers to. -/
def keyData (loads : Key → Option (List Byte)) (k : Key) : Option KeyData :=
  if k.size = 0 then some (.val k.value) else (loads k).map .ref

def KeyData.size : KeyData → ℕ
  | .val _ => 0
  | .ref bytes => bytes.length

/-- The comparison of one key of a variable with one that is looked up. -/
def KeyData.matches (dkey key : KeyData) : Bool :=
  match dkey, key with
  | .val v, .val v' => v = v'
  | .ref bytes, .ref bytes' => bytes.length = bytes'.length && bytes = bytes'
  | _, _ => false

def keysMatch : List KeyData → List KeyData → Bool
  | [], [] => true
  | dkey :: dkeys, key :: keys => dkey.matches key && keysMatch dkeys keys
  | _, _ => false

/-- The walk along a hash chain: the variable, or that there is none. A chunk that is free on a
chain starts the walk again, which without other CPUs goes on forever. -/
def searchChain (d : Dstate) (hashval : Word) (keys : List KeyData) :
    List ℕ → Option (Option ℕ)
  | [] => some none
  | c :: chain =>
    if (d.dvar c).hashval ≠ hashval then
      if (d.dvar c).hashval = dynhashFree then none else searchChain d hashval keys chain
    else if keysMatch (d.dvar c).keys keys then some (some c)
    else searchChain d hashval keys chain

/-- `P2ROUNDUP(n, 8)`. -/
def roundup8 (n : ℕ) : ℕ := (n + 7) / 8 * 8

/-- The bytes of a variable before its data: the header, the keys, and what they refer to. -/
def dataOffset : ℕ :=
  dynvarSize + keyBytes * (keys.length - 1) + (keys.map fun k => roundup8 k.size).sum

/-- A counter of a CPU goes up. -/
def Dstate.drop (d : Dstate) (kind : DropKind) (cpu : ℕ) : Dstate :=
  { d with drops := update d.drops kind (update (d.drops kind) cpu
      (d.drops kind cpu + 1)) }

/-- The search for a chunk, from the lists of `cpu` on, at most `n` steps: a CPU with its free
list, or that there is none, with the counter. -/
def findFree (ncpu me : ℕ) : ℕ → ℕ → DsState → Dstate → Option (Option (ℕ × ℕ × List ℕ) × Dstate)
  | 0, _, _, _ => none
  | n + 1, cpu, nstate, d =>
    match d.lists (.free cpu) with
    | c :: rest => some (some (cpu, c, rest), d)
    | [] =>
      match d.lists (.clean cpu) with
      | [] =>
        match d.state with
        | .clean =>
          let next := if ncpu ≤ cpu + 1 then 0 else cpu + 1
          let nstate := if d.lists (.dirty cpu) ≠ [] ∧ nstate = .empty then .dirty else nstate
          let nstate := if d.lists (.rinsing cpu) ≠ [] then .rinsing else nstate
          if next ≠ me then findFree ncpu me n next nstate d
          else findFree ncpu me n next nstate { d with state := nstate }
        | .dirty => some (none, d.drop .dirty cpu)
        | .rinsing => some (none, d.drop .rinsing cpu)
        | .empty => some (none, d.drop .drops cpu)
      | _ :: _ =>
        findFree ncpu me n cpu nstate { d with lists := moveAll d.lists (.clean cpu) (.free cpu) }

/-- The size that is asked for. -/
def needs (dsize : ℕ) : ℕ := dataOffset keys + dsize

def bucketOf (d : Dstate) (keys : List KeyData) : ℕ := (hashOf keys).toNat % d.hashsize

/-- A new variable. -/
def allocate (ncpu me : ℕ) (keys : List KeyData) (dsize : ℕ) (d : Dstate) :
    Option (Option ℕ × Dstate) :=
  if d.chunksize < needs keys dsize then some (none, d.drop .drops me)
  else do
    match ← findFree ncpu me (2 * ncpu + 2) me .empty d with
    | (none, d) => some (none, d)
    | (some (cpu, c, rest), d) =>
      some (some c,
        { d with
          lists := moveOne d.lists (.free cpu) (.chain (bucketOf d keys)) c rest
          dvar := update d.dvar c ⟨hashOf keys, keys, c + dataOffset keys⟩ })

/-- The variable is taken off its chain and put on the dirty list. -/
def deallocate (me : ℕ) (keys : List KeyData) (c : ℕ) (d : Dstate) : Dstate :=
  let bucket := bucketOf d keys
  { d with
    lists := moveOne d.lists (.chain bucket) (.dirty me) c ((d.lists (.chain bucket)).erase c)
    dvar := update d.dvar c { d.dvar c with hashval := dynhashFree }
    lock := update d.lock bucket (d.lock bucket + 2) }

/-- `dtrace_dynvar` on the CPU `me`: the variable that is returned, and the state. -/
def dtraceDynvar (ncpu me : ℕ) (loads : Key → Option (List Byte)) (key : List Key) (dsize : ℕ)
    (op : DynvarOp) (d : Dstate) : Option (Option ℕ × Dstate) :=
  match key.mapM (keyData loads) with
  | none => some (none, d)
  | some keys => do
    let bucket := bucketOf d keys
    -- A bucket that stays locked is waited for forever.
    if op = .dealloc ∧ d.lock bucket % 2 = 1 then none
    else
      match ← searchChain d (hashOf keys) keys (d.lists (.chain bucket)), op with
      | some c, .dealloc => some (none, deallocate me keys c d)
      | some c, _ => some (some c, d)
      | none, .alloc => allocate ncpu me keys dsize d
      | none, .noalloc => some (none, d)
      | none, .dealloc =>
        some (none, { d with lock := update d.lock bucket (d.lock bucket + 2) })

/-! ## `dtrace_dynvar_clean` -/

/-- The CPU has dirty chunks and no clean ones. -/
def rinses (d : Dstate) (i : ℕ) : Bool :=
  d.lists (.dirty i) ≠ [] && d.lists (.clean i) = []

/-- The dirty lists of these CPUs are moved aside; whether there was one. -/
def rinseAll : List ℕ → Dstate → Option (Bool × Dstate)
  | [], d => some (false, d)
  | i :: cpus, d =>
    -- `ASSERT(dcpu->dtdsc_rinsing == NULL)`
    if d.lists (.rinsing i) ≠ [] then none
    else if rinses d i then do
      let (_, d) ← rinseAll cpus { d with lists := moveAll d.lists (.dirty i) (.rinsing i) }
      some (true, d)
    else rinseAll cpus d

/-- After the first synchronisation they become clean. -/
def cleanAll : List ℕ → Dstate → Option Dstate
  | [], d => some d
  | i :: cpus, d =>
    if d.lists (.rinsing i) = [] then cleanAll cpus d
    -- `ASSERT(dcpu->dtdsc_clean == NULL)`
    else if d.lists (.clean i) ≠ [] then none
    else cleanAll cpus { d with lists := moveAll d.lists (.rinsing i) (.clean i) }

inductive Cleaner where
  | idle
  /-- Before the first `dtrace_sync`. -/
  | rinsed
  /-- Before the second. -/
  | cleaned
  deriving DecidableEq

/-! ## The system -/

structure Sys where
  dstate : Dstate
  cleaner : Cleaner

/-- `dtrace_dynvar_clean` up to the next synchronisation, or its end. -/
def dtraceDynvarClean (ncpu : ℕ) (s : Sys) : Option Sys :=
  match s.cleaner with
  | .idle => do
    let (work, d) ← rinseAll (List.range ncpu) s.dstate
    some ⟨d, if work then .rinsed else .idle⟩
  | .rinsed => do
    let d ← cleanAll (List.range ncpu) s.dstate
    some ⟨d, .cleaned⟩
  | .cleaned => some ⟨{ s.dstate with state := .clean }, .idle⟩

/-! ## The keys of the emulator -/

/-- `DTRACE_TLS_THRKEY` for a thread, with the interrupts that are active on the CPU. -/
def tlsThrkey (did : Word) (intrActv : ℕ) : Word :=
  let actv := intrActv >>> 11
  let intr := if actv = 0 then 0 else actv.log2 + 1
  ((did + BitVec.ofNat 64 difVariableMax) &&& BitVec.ofNat 64 (2 ^ 61 - 1)) |||
    (BitVec.ofNat 64 intr <<< 61)

/-- The keys of a variable: the tuple, the variable and, if it is one of the thread, the
thread. A scalar has no tuple. -/
def accessKeys (thread : Option Word) (id : ℕ) (tuple : List Key) : List Key :=
  tuple ++ ⟨BitVec.ofNat 64 id, 0⟩ :: (thread.toList.map fun t => ⟨t, 0⟩)

end Osol.Dynvar
