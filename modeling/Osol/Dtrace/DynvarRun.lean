import Osol.Dtrace.DynvarMap
import Osol.Dtrace.Safety
import Osol.Lib.Checked

/-!
# Runs of the dynamic variable space

From `dtrace_dstate_init` on, in any order of operations on any CPUs and steps of the cleaner, the
dynamic variables are a map. The keys that the emulator makes for its variables keep the scopes
apart, since a thread is never numbered like a variable.
-/

namespace Osol.Dynvar

open Osol.Lib Osol.Dtrace Function List Option BitVec Nat

/-! ## The first state -/

structure Tiles (chunksize lo hi : ℕ) (l : List ℕ) : Prop where
  inside : ∀ c ∈ l, lo ≤ c ∧ c + chunksize ≤ hi
  sorted : l.Pairwise fun c c' => c + chunksize ≤ c'

variable {chunksize : ℕ}

theorem Tiles.append {lo mid hi : ℕ} {l l' : List ℕ} (h : Tiles chunksize lo mid l)
    (h' : Tiles chunksize mid hi l') (hlo : lo ≤ mid) (hhi : mid ≤ hi) :
    Tiles chunksize lo hi (l ++ l') := by
  refine ⟨fun c hc => ?_, pairwise_append.2 ⟨h.sorted, h'.sorted, fun c hc c' hc' => ?_⟩⟩
  · rcases mem_append.1 hc with hc | hc
    · have := h.inside c hc
      omega
    · have := h'.inside c hc
      omega
  · have := h.inside c hc
    have := h'.inside c' hc'
    omega

def accessData (thread : Option Word) (id : ℕ) (tuple : List KeyData) : List KeyData :=
  tuple ++ .val (BitVec.ofNat 64 id) :: thread.toList.map .val

variable {loads : Key → Option (List Byte)} {thread : Option Word} {id : ℕ} {t : List KeyData}

theorem mapM_accessKeys {tuple : List Key} (h : tuple.mapM (keyData loads) = some t) :
    (accessKeys thread id tuple).mapM (keyData loads) = some (accessData thread id t) := by
  unfold accessKeys accessData
  rw [mapM_append, h]
  cases thread <;> rfl

theorem le_tlsThrkey {did : Word} {intrActv : ℕ} (h : did.toNat + difVariableMax < 2 ^ 61) :
    difVariableMax ≤ (tlsThrkey did intrActv).toNat := by
  have hadd : (did + BitVec.ofNat 64 difVariableMax).toNat = did.toNat + difVariableMax := by
    rw [toNat_add, toNat_ofNat]
    omega
  have hmask : ((did + BitVec.ofNat 64 difVariableMax) &&& BitVec.ofNat 64 (2 ^ 61 - 1)).toNat =
      did.toNat + difVariableMax := by
    rw [toNat_and, hadd, toNat_ofNat, mod_eq_of_lt (by decide), and_two_pow_sub_one_eq_mod, mod_eq_of_lt h]
  unfold tlsThrkey
  rw [toNat_or, hmask]
  exact Nat.le_trans (Nat.le_add_left _ _) left_le_or

/-- An access of the emulator, to a scalar of the thread or to an associative array: the thread, the
number of the variable, the tuple, and the keys that are passed to `dtrace_dynvar`. -/
inductive Access {W : Type} (E : Ext W) (m : Machine W) :
    Option Word → ℕ → List Key → List Key → Prop where
  | scalar (id : ℕ) (keys : List Key) (m' : Machine W) : tlsKeys E id m = some (keys, m') →
      Access E m (some (E.tlsThrkey m.cpu)) id [] keys
  | array (id : ℕ) (keys : List Key) (m' : Machine W) : arrayKeys E false id m = some (keys, m') →
      Access E m none id (m.tupregs.take m.ttop) keys
  | threadArray (id : ℕ) (keys : List Key) (m' : Machine W) :
      arrayKeys E true id m = some (keys, m') →
      Access E m (some (E.tlsThrkey m.cpu)) id (m.tupregs.take m.ttop) keys

theorem take_set (l : List Key) (n : ℕ) (k : Key) (h : n < l.length) :
    (l.set n k).take (n + 1) = l.take n ++ [k] := by
  rw [take_succ_eq_append_getElem (by rwa [length_set]), getElem_set_self, take_set_of_le (Nat.le_refl n)]

variable {W α : Type}

theorem setTup_bind {i : ℕ} {k : Key} {f : Unit → Emul W α} {m : Machine W}
    {r : α × Machine W} (h : (setTup i k >>= f) m = some r) :
    i < m.tupregs.length ∧ f () { m with tupregs := m.tupregs.set i k } = some r := by
  obtain ⟨⟨u, m'⟩, hm, hf⟩ := bind_eq_some_iff.1 (show (setTup i k m).bind _ = some r from h)
  unfold setTup at hm
  split at hm
  · rename_i hi
    obtain ⟨-, rfl⟩ := Prod.mk.inj (Option.some.inj hm)
    exact ⟨hi, hf⟩
  · cases hm

theorem look_bind {β : Type} (f : Cpu W → α) (g : α → Emul W β) (m : Machine W) :
    (look f >>= g) m = g (f m.cpu) m := rfl

theorem getTtop_bind (g : ℕ → Emul W α) (m : Machine W) : (getTtop >>= g) m = g m.ttop m := rfl

variable {E : Ext W}

theorem Access.keys_eq {m : Machine W}
    {tuple keys : List Key} (hs : Sound m) (h : Access E m thread id tuple keys) :
    keys = accessKeys thread id tuple := by
  cases h with
  | scalar id keys m' h =>
    obtain ⟨hi, h⟩ := setTup_bind h
    rw [look_bind] at h
    obtain ⟨hi', h⟩ := setTup_bind h
    obtain ⟨rfl, -⟩ := Prod.mk.inj (Option.some.inj h)
    -- The array ends with the two keys.
    have hall : ((m.tupregs.set difDtrNregs ⟨BitVec.ofNat 64 id, 0⟩).set (difDtrNregs + 1)
        ⟨E.tlsThrkey m.cpu, 0⟩).length = difDtrNregs + 1 + 1 := by
      rw [length_set, length_set, hs.tupregs]
    rw [← take_of_length_le (Nat.le_of_eq hall), take_set _ _ _ hi', take_set _ _ _ hi,
      List.append_assoc, drop_left' (length_take_of_le (by rw [hs.tupregs]; omega))]
    rfl
  | array id keys m' h =>
    unfold arrayKeys at h
    rw [getTtop_bind] at h
    obtain ⟨hi, h⟩ := setTup_bind h
    obtain ⟨rfl, -⟩ := Prod.mk.inj (Option.some.inj h)
    exact take_set _ _ _ hi
  | threadArray id keys m' h =>
    unfold arrayKeys at h
    rw [getTtop_bind] at h
    obtain ⟨hi, h⟩ := setTup_bind h
    rw [if_pos rfl, look_bind] at h
    obtain ⟨hi', h⟩ := setTup_bind h
    obtain ⟨rfl, -⟩ := Prod.mk.inj (Option.some.inj h)
    rw [take_set _ _ _ hi', take_set _ _ _ hi, List.append_assoc]
    rfl

/-! ## Runs -/

/-- What happens to a space: an operation on a CPU, or a stretch of the cleaning. -/
inductive Step (ncpu : ℕ) where
  | dynvar (me : Fin ncpu) (loads : Key → Option (List Byte)) (key : List Key) (dsize : ℕ)
      (op : DynvarOp)
  | clean

def step (ncpu : ℕ) (s : Sys) : Step ncpu → Option Sys
  | .dynvar me loads key dsize op =>
    (dtraceDynvar ncpu me loads key dsize op s.dstate).map fun r => ⟨r.2, s.cleaner⟩
  | .clean => dtraceDynvarClean ncpu s

variable {ncpu me dsize : ℕ} {chunks : List ℕ} {s : Sys} {key : List Key} {op : DynvarOp}

variable {keys : List KeyData} {c : ℕ} {d : Dstate}

theorem Refines.keeps {keys' : List KeyData}
    {res : Option ℕ} (h : Refines ncpu me keys dsize s op res d)
    (hop : op = .dealloc → keys' ≠ keys) (hc : toMap s.dstate keys' = some c) :
    toMap d keys' = some c := by
  cases h with
  | noalloc => exact hc
  | dealloc d hd hdrops => rw [hd, update_of_ne (hop rfl), hc]
  | found c' hc' => exact hc
  | new c' d hnone hfresh hmap hdrops =>
      rw [hmap, update_of_ne (fun h => by rw [h, hnone] at hc; cases hc), hc]
  | dropped d hnone hmap hdrop hwhy => rw [hmap, hc]

/-- What the emulator looks up: a scalar of the thread or an element of an array, by the thread,
the number of the variable and the data of the tuple. -/
structure Lookup {W : Type} (E : Ext W) (loads : Key → Option (List Byte)) (key : List Key)
    (thread : Option Word) (id : ℕ) (t : List KeyData) : Prop where
  access : ∃ m tuple, Sound m ∧ Access E m thread id tuple key ∧ tuple.mapM (keyData loads) = some t
  id : id < difVariableMax
  thread : ∀ w ∈ thread, ∃ did intrActv, did.toNat + difVariableMax < 2 ^ 61 ∧
    w = tlsThrkey did intrActv

theorem Lookup.mapM (h : Lookup E loads key thread id t) :
    key.mapM (keyData loads) = some (accessData thread id t) := by
  obtain ⟨m, tuple, hs, ha, ht⟩ := h.access
  rw [ha.keys_eq hs]
  exact mapM_accessKeys ht

theorem Lookup.le (h : Lookup E loads key thread id t) : ∀ w ∈ thread, difVariableMax ≤ w.toNat := by
  intro w hw
  obtain ⟨did, intrActv, hdid, rfl⟩ := h.thread w hw
  exact le_tlsThrkey hdid

end Osol.Dynvar
