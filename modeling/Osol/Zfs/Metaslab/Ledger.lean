import Mathlib

/-!
# What a metaslab is for

A `Ledger` says where every offset of a region stands while three transaction groups
are in flight: allocated as of the last synced group, allocated in a group that has not
synced, freed in one, or freed and deferred. It has no maps, slots or logs; offsets are
any type and ranges any sets. `Ledger.Ok` is what every operation keeps, and
`Ledger.Ok.reuse` is the point of it: what is available is allocated nowhere, and was
freed at least two synced groups ago.
-/

namespace Osol.Zfs

open Set Nat

variable {α : Type*}

/-- Where the offsets stand. Groups before `txg` have synced. -/
structure Ledger (α : Type*) where
  /-- The group that is syncing or next to sync. -/
  txg : ℕ
  /-- Allocated as of the last synced group. -/
  synced : Set α
  /-- Allocated in a group, and not handed back at once. -/
  allocs : ℕ → Set α
  /-- Those allocations of `txg` that are on their way to disk. -/
  written : Set α
  /-- Freed in a group, not yet on the way to disk. -/
  frees : ℕ → Set α
  /-- Freed in `txg`, on the way to disk. -/
  freed : Set α
  /-- Freed in a synced group, by the parity of the group. -/
  deferred : ℕ → Set α
  /-- The group an offset in use was allocated in. -/
  owner : α → Option ℕ
  /-- The group an offset was last freed in, if it was not allocated since. -/
  freedIn : α → Option ℕ
  /-- The groups the region was told to have synced. -/
  dones : Set ℕ

namespace Ledger

variable (L : Ledger α)

/-- What the log written for `txg` leaves allocated. -/
def syncing : Set α := (L.synced ∪ L.written) \ L.freed

/-- Allocations that the last synced group does not have. -/
def pending : Set α := {x | ∃ n, x ∈ L.allocs n}

/-- The allocations of a group that are not yet on their way to disk. -/
def unwritten (n : ℕ) : Set α := {x | x ∈ L.allocs n ∧ (n = L.txg → x ∉ L.written)}

/-- What may be handed out. -/
def avail (U : Set α) (L : Ledger α) : Set α :=
  (((U \ L.synced) \ L.deferred 0) \ L.deferred 1) \ L.pending

/-- A group that is open, quiescing or syncing. -/
def Live (n : ℕ) : Prop := L.txg ≤ n ∧ n ≤ L.txg + 2

structure Ok (U : Set α) (L : Ledger α) : Prop where
  synced_sub : ∀ x ∈ L.synced, x ∈ U
  allocs_sub : ∀ n, ∀ x ∈ L.allocs n, x ∈ U
  allocs_live : ∀ n, ∀ x ∈ L.allocs n, L.Live n
  allocs_inj : ∀ n m x, x ∈ L.allocs n → x ∈ L.allocs m → n = m
  allocs_synced : ∀ n, ∀ x ∈ L.allocs n, x ∉ L.synced
  allocs_deferred : ∀ n i, ∀ x ∈ L.allocs n, x ∉ L.deferred i
  deferred_sub : ∀ i, ∀ x ∈ L.deferred i, x ∈ U
  deferred_synced : ∀ i, ∀ x ∈ L.deferred i, x ∉ L.synced
  deferred_freedIn : ∀ i, ∀ x ∈ L.deferred i, ∃ f, L.freedIn x = some f ∧ f % 2 = i ∧
    f < L.txg ∧ L.txg ≤ f + 2 ∧ (L.txg = f + 2 → f + 1 ∈ L.dones)
  written_sub : ∀ x ∈ L.written, x ∈ L.allocs L.txg
  freed_sub : ∀ x ∈ L.freed, x ∈ L.synced ∨ x ∈ L.written
  freed_freedIn : ∀ x ∈ L.freed, L.freedIn x = some L.txg
  frees_live : ∀ n, ∀ x ∈ L.frees n, L.Live n
  frees_sub : ∀ n, ∀ x ∈ L.frees n, x ∈ L.synced ∨ ∃ m ≤ n, x ∈ L.allocs m
  frees_freedIn : ∀ n, ∀ x ∈ L.frees n, L.freedIn x = some n
  frees_freed : ∀ n, ∀ x ∈ L.frees n, x ∉ L.freed
  owner_in : ∀ x m, L.owner x = some m → m < L.txg ∧ x ∈ L.synced ∨ x ∈ L.allocs m
  owner_freed : ∀ x m, L.owner x = some m → x ∉ L.freed ∧ ∀ n, x ∉ L.frees n
  freedIn_in : ∀ x f, L.freedIn x = some f → x ∈ L.frees f ∨ x ∈ L.freed ∨
    x ∈ L.deferred (f % 2) ∨ f + 1 ∈ L.dones ∧ f + 2 ∈ L.dones

/-! ## Operations -/

open Classical in
noncomputable def alloc (R : Set α) (n : ℕ) (L : Ledger α) : Ledger α :=
  { L with
    allocs := fun m => {x | x ∈ L.allocs m ∨ m = n ∧ x ∈ R}
    owner := fun x => if x ∈ R then some n else L.owner x
    freedIn := fun x => if x ∈ R then none else L.freedIn x }

open Classical in
noncomputable def free (R : Set α) (n : ℕ) (L : Ledger α) : Ledger α :=
  { L with
    frees := fun m => {x | x ∈ L.frees m ∨ m = n ∧ x ∈ R}
    owner := fun x => if x ∈ R then none else L.owner x
    freedIn := fun x => if x ∈ R then some n else L.freedIn x }

open Classical in
/-- Hand `R`, allocated in group `n`, back at once. -/
noncomputable def freeNow (R : Set α) (n : ℕ) (L : Ledger α) : Ledger α :=
  { L with
    allocs := fun m => {x | x ∈ L.allocs m ∧ ¬ (m = n ∧ x ∈ R)}
    owner := fun x => if x ∈ R then none else L.owner x }

/-- Put what was allocated and freed in `txg` on its way to disk. -/
def write : Ledger α :=
  { L with
    written := L.allocs L.txg
    freed := L.freed ∪ L.frees L.txg
    frees := fun m => {x | x ∈ L.frees m ∧ m ≠ L.txg} }

/-- The group `txg` has synced: its frees are deferred, those of two groups ago are
available. -/
def done : Ledger α :=
  { L with
    txg := L.txg + 1
    synced := L.syncing
    allocs := fun m => {x | x ∈ L.allocs m ∧ m ≠ L.txg}
    written := ∅
    freed := ∅
    deferred := fun i => {x | i = L.txg % 2 ∧ x ∈ L.freed ∨ i ≠ L.txg % 2 ∧ x ∈ L.deferred i}
    dones := insert L.txg L.dones }

/-- The group `txg` has synced without a change to the region. -/
def skip : Ledger α := { L with txg := L.txg + 1 }

open Classical in
/-- Nothing in flight, `A` allocated. -/
noncomputable def initial (A : Set α) (txg : ℕ) : Ledger α where
  txg := txg
  synced := A
  allocs := fun _ => ∅
  written := ∅
  frees := fun _ => ∅
  freed := ∅
  deferred := fun _ => ∅
  owner := fun x => if x ∈ A then some 0 else none
  freedIn := fun _ => none
  dones := ∅

variable {U R : Set α} {L : Ledger α} {n : ℕ}

/-! ## Every operation keeps the ledger consistent -/

section Available

variable {x : α}

section

variable (h : L.Ok U) (hx : x ∈ L.avail U)
include h hx

theorem Ok.avail_notMem : x ∈ U ∧ x ∉ L.synced ∧ (∀ i, x ∉ L.deferred i) ∧ ∀ n, x ∉ L.allocs n := by
  simp only [avail, pending, mem_sdiff, mem_ofPred_eq, not_exists] at hx
  obtain ⟨⟨⟨⟨hU, hs⟩, h0⟩, h1⟩, ha⟩ := hx
  refine ⟨hU, hs, fun i hi => ?_, ha⟩
  obtain ⟨f, -, rfl, -⟩ := h.deferred_freedIn i x hi
  rcases mod_two_eq_zero_or_one f with hf | hf <;> rw [hf] at hi <;> contradiction

theorem Ok.avail_not_freed : x ∉ L.freed ∧ ∀ n, x ∉ L.frees n := by
  obtain ⟨-, hs, -, ha⟩ := h.avail_notMem hx
  refine ⟨fun hf => ?_, fun n hf => ?_⟩
  · rcases h.freed_sub x hf with h' | h'
    · exact hs h'
    · exact ha _ (h.written_sub x h')
  · rcases h.frees_sub n x hf with h' | ⟨m, -, h'⟩
    · exact hs h'
    · exact ha m h'

/-- What is available is in use nowhere, and was freed two synced groups ago. -/
theorem Ok.reuse : L.owner x = none ∧ x ∉ L.syncing ∧
      ∀ f, L.freedIn x = some f → f + 1 ∈ L.dones ∧ f + 2 ∈ L.dones := by
  obtain ⟨-, hs, hd, ha⟩ := h.avail_notMem hx
  obtain ⟨hfreed, hfrees⟩ := h.avail_not_freed hx
  refine ⟨?_, ?_, fun f hf => ?_⟩
  · cases ho : L.owner x with
    | none => rfl
    | some m =>
      rcases h.owner_in x m ho with ⟨-, h'⟩ | h'
      · exact absurd h' hs
      · exact absurd h' (ha m)
  · rintro ⟨h' | h', -⟩
    · exact hs h'
    · exact ha _ (h.written_sub x h')
  · rcases h.freedIn_in x f hf with h' | h' | h' | h'
    · exact absurd h' (hfrees f)
    · exact absurd h' hfreed
    · exact absurd h' (hd _)
    · exact h'

end

end Available

theorem initial_ok {A : Set α} (hA : A ⊆ U) (hn : 0 < n) : (initial A n).Ok U := by
  constructor <;> simp [initial] <;> grind

theorem Ok.alloc (h : L.Ok U) (hn : L.Live n) (hR : R ⊆ L.avail U) : (L.alloc R n).Ok U := by
  have fresh : ∀ x ∈ R, x ∈ U ∧ x ∉ L.synced ∧ (∀ i, x ∉ L.deferred i) ∧ ∀ m, x ∉ L.allocs m :=
    fun x hx => h.avail_notMem (hR hx)
  have idle : ∀ x ∈ R, x ∉ L.freed ∧ ∀ m, x ∉ L.frees m := fun x hx => h.avail_not_freed (hR hx)
  have old : ∀ {x}, x ∉ R → (L.alloc R n).freedIn x = L.freedIn x := fun hx => if_neg hx
  refine ⟨h.synced_sub, ?_, ?_, ?_, ?_, ?_, h.deferred_sub, h.deferred_synced, ?_,
    fun x hx => .inl (h.written_sub x hx), h.freed_sub, ?_, h.frees_live, ?_, ?_, h.frees_freed,
    ?_, ?_, ?_⟩
  · rintro m x (hx | ⟨-, hx⟩)
    · exact h.allocs_sub m x hx
    · exact (fresh x hx).1
  · rintro m x (hx | ⟨rfl, -⟩)
    · exact h.allocs_live m x hx
    · exact hn
  · rintro m k x (hx | ⟨rfl, hx⟩) (hx' | ⟨rfl, hx'⟩)
    · exact h.allocs_inj m k x hx hx'
    · exact absurd hx ((fresh x hx').2.2.2 m)
    · exact absurd hx' ((fresh x hx).2.2.2 k)
    · rfl
  · rintro m x (hx | ⟨-, hx⟩)
    · exact h.allocs_synced m x hx
    · exact (fresh x hx).2.1
  · rintro m i x (hx | ⟨-, hx⟩)
    · exact h.allocs_deferred m i x hx
    · exact (fresh x hx).2.2.1 i
  · intro i x hx
    rw [old fun hR => (fresh x hR).2.2.1 i hx]
    exact h.deferred_freedIn i x hx
  · intro x hx
    rw [old fun hR => (idle x hR).1 hx]
    exact h.freed_freedIn x hx
  · intro m x hx
    refine (h.frees_sub m x hx).imp_right ?_
    rintro ⟨k, hk, hx⟩
    exact ⟨k, hk, .inl hx⟩
  · intro m x hx
    rw [old fun hR => (idle x hR).2 m hx]
    exact h.frees_freedIn m x hx
  · intro x m hm
    by_cases hx : x ∈ R
    · obtain rfl : n = m := by simpa [Ledger.alloc, hx] using hm
      exact .inr (.inr ⟨rfl, hx⟩)
    · exact (h.owner_in x m (by simpa [Ledger.alloc, hx] using hm)).imp_right .inl
  · intro x m hm
    by_cases hx : x ∈ R
    · exact idle x hx
    · exact h.owner_freed x m (by simpa [Ledger.alloc, hx] using hm)
  · intro x f hf
    by_cases hx : x ∈ R
    · simp [Ledger.alloc, hx] at hf
    · exact h.freedIn_in x f (by rwa [old hx] at hf)

variable {m : ℕ}

theorem Ok.owned (h : L.Ok U) {x : α} (ho : L.owner x = some m) :
    (∀ i, x ∉ L.deferred i) ∧ x ∉ L.freed ∧ ∀ n, x ∉ L.frees n := by
  refine ⟨fun i hi => ?_, h.owner_freed x m ho⟩
  rcases h.owner_in x m ho with ⟨-, hs⟩ | ha
  · exact h.deferred_synced i x hi hs
  · exact h.allocs_deferred m i x ha hi

theorem Ok.free (h : L.Ok U) (hn : L.Live n) (hR : ∀ x ∈ R, ∃ m ≤ n, L.owner x = some m) :
    (L.free R n).Ok U := by
  have idle : ∀ x ∈ R, (∀ i, x ∉ L.deferred i) ∧ x ∉ L.freed ∧ ∀ m, x ∉ L.frees m := by
    intro x hx
    obtain ⟨m, -, ho⟩ := hR x hx
    exact h.owned ho
  have old : ∀ {x}, x ∉ R → (L.free R n).freedIn x = L.freedIn x := fun hx => if_neg hx
  have kept : ∀ {x m}, (L.free R n).owner x = some m → x ∉ R ∧ L.owner x = some m := by
    intro x m hm
    by_cases hx : x ∈ R
    · simp [Ledger.free, hx] at hm
    · exact ⟨hx, by simpa [Ledger.free, hx] using hm⟩
  refine ⟨h.synced_sub, h.allocs_sub, h.allocs_live, h.allocs_inj, h.allocs_synced,
    h.allocs_deferred, h.deferred_sub, h.deferred_synced, ?_, h.written_sub, h.freed_sub, ?_, ?_,
    ?_, ?_, ?_, fun x m hm => h.owner_in x m (kept hm).2, ?_, ?_⟩
  · intro i x hx
    rw [old fun hR => (idle x hR).1 i hx]
    exact h.deferred_freedIn i x hx
  · intro x hx
    rw [old fun hR => (idle x hR).2.1 hx]
    exact h.freed_freedIn x hx
  · rintro m x (hx | ⟨rfl, -⟩)
    · exact h.frees_live m x hx
    · exact hn
  · rintro m x (hx | ⟨rfl, hx⟩)
    · exact h.frees_sub m x hx
    · obtain ⟨k, hk, ho⟩ := hR x hx
      exact (h.owner_in x k ho).imp And.right fun ha => ⟨k, hk, ha⟩
  · rintro m x (hx | ⟨rfl, hx⟩)
    · rw [old fun hR => (idle x hR).2.2 m hx]
      exact h.frees_freedIn m x hx
    · simp [Ledger.free, hx]
  · rintro m x (hx | ⟨-, hx⟩)
    · exact h.frees_freed m x hx
    · exact (idle x hx).2.1
  · intro x m hm
    obtain ⟨hx, ho⟩ := kept hm
    refine ⟨(h.owner_freed x m ho).1, ?_⟩
    rintro k (hk | ⟨-, hk⟩)
    · exact (h.owner_freed x m ho).2 k hk
    · exact hx hk
  · intro x f hf
    by_cases hx : x ∈ R
    · obtain rfl : n = f := by simpa [Ledger.free, hx] using hf
      exact .inl (.inr ⟨rfl, hx⟩)
    · exact (h.freedIn_in x f (by rwa [old hx] at hf)).imp_left .inl

theorem Ok.freeNow (h : L.Ok U) (hR : ∀ x ∈ R, L.owner x = some n ∧ x ∈ L.unwritten n) :
    (L.freeNow R n).Ok U := by
  -- what goes back was neither written nor freed
  have keep : ∀ {x m}, x ∈ L.allocs m → x ∈ L.freed ∨ x ∈ L.written ∨ (∃ k, x ∈ L.frees k) ∨
      x ∉ R → x ∈ (L.freeNow R n).allocs m := by
    rintro x m hx hor
    refine ⟨hx, ?_⟩
    rintro ⟨rfl, hxR⟩
    obtain ⟨ho, -, hw⟩ := hR x hxR
    rcases hor with hf | hf | ⟨k, hf⟩ | hf
    · exact (h.owner_freed x _ ho).1 hf
    · exact hw (h.allocs_inj _ _ x hx (h.written_sub x hf)) hf
    · exact (h.owner_freed x _ ho).2 k hf
    · exact hf hxR
  have kept : ∀ {x m}, (L.freeNow R n).owner x = some m → x ∉ R ∧ L.owner x = some m := by
    intro x m hm
    by_cases hx : x ∈ R
    · simp [Ledger.freeNow, hx] at hm
    · exact ⟨hx, by simpa [Ledger.freeNow, hx] using hm⟩
  refine ⟨h.synced_sub, fun m x hx => h.allocs_sub m x hx.1, fun m x hx => h.allocs_live m x hx.1,
    fun m k x hx hx' => h.allocs_inj m k x hx.1 hx'.1, fun m x hx => h.allocs_synced m x hx.1,
    fun m i x hx => h.allocs_deferred m i x hx.1, h.deferred_sub, h.deferred_synced,
    h.deferred_freedIn, fun x hx => keep (h.written_sub x hx) (.inr (.inl hx)), h.freed_sub,
    h.freed_freedIn, h.frees_live, ?_, h.frees_freedIn, h.frees_freed, ?_,
    fun x m hm => h.owner_freed x m (kept hm).2, h.freedIn_in⟩
  · intro m x hx
    refine (h.frees_sub m x hx).imp_right ?_
    rintro ⟨k, hk, ha⟩
    exact ⟨k, hk, keep ha (.inr (.inr (.inl ⟨m, hx⟩)))⟩
  · intro x m hm
    obtain ⟨hx, ho⟩ := kept hm
    exact (h.owner_in x m ho).imp_right fun ha => keep ha (.inr (.inr (.inr hx)))

theorem Ok.write (h : L.Ok U) : L.write.Ok U := by
  refine ⟨h.synced_sub, h.allocs_sub, h.allocs_live, h.allocs_inj, h.allocs_synced,
    h.allocs_deferred, h.deferred_sub, h.deferred_synced, h.deferred_freedIn, fun x hx => hx, ?_,
    ?_, fun m x hx => h.frees_live m x hx.1, fun m x hx => h.frees_sub m x hx.1,
    fun m x hx => h.frees_freedIn m x hx.1, ?_, h.owner_in, ?_, ?_⟩
  · rintro x (hx | hx)
    · exact (h.freed_sub x hx).imp_right (h.written_sub x)
    · refine (h.frees_sub _ x hx).imp_right ?_
      rintro ⟨m, hm, ha⟩
      rwa [show m = L.txg from le_antisymm hm (h.allocs_live m x ha).1] at ha
  · rintro x (hx | hx)
    · exact h.freed_freedIn x hx
    · exact h.frees_freedIn _ x hx
  · rintro m x ⟨hx, hm⟩ (hx' | hx')
    · exact h.frees_freed m x hx hx'
    · have hf := h.frees_freedIn m x hx
      rw [h.frees_freedIn _ x hx'] at hf
      exact hm (Option.some.inj hf).symm
  · intro x m ho
    obtain ⟨hf, hn⟩ := h.owner_freed x m ho
    refine ⟨?_, fun k hk => hn k hk.1⟩
    rintro (hx | hx)
    · exact hf hx
    · exact hn _ hx
  intro x f hf
  rcases h.freedIn_in x f hf with hx | hx | hx
  · by_cases hft : f = L.txg
    · exact .inr (.inl (.inr (hft ▸ hx)))
    · exact .inl ⟨hx, hft⟩
  · exact .inr (.inl (.inl hx))
  · exact .inr (.inr hx)

theorem mem_done_synced (hw : L.written = L.allocs L.txg) {x : α} :
    x ∈ L.done.synced ↔ (x ∈ L.synced ∨ x ∈ L.allocs L.txg) ∧ x ∉ L.freed := by
  rw [← hw]
  exact Iff.rfl

theorem Ok.done (h : L.Ok U) (hw : L.written = L.allocs L.txg) (hf : L.frees L.txg = ∅) : L.done.Ok U := by
  have hsync := fun x => mem_done_synced hw (x := x)
  -- an allocation of an older group is in the synced state now
  have later : ∀ {n x}, x ∈ L.frees n → n ≠ L.txg := by
    rintro n x hx rfl
    rwa [hf] at hx
  refine ⟨?_, fun m x hx => h.allocs_sub m x hx.1, ?_, fun m k x hx hx' => h.allocs_inj m k x hx.1 hx'.1,
    ?_, ?_, ?_, ?_, ?_, ?_, ?_, ?_, ?_, ?_, h.frees_freedIn, ?_, ?_, ?_, ?_⟩
  · intro x hx
    rcases ((hsync x).1 hx).1 with hs | ha
    · exact h.synced_sub x hs
    · exact h.allocs_sub _ x ha
  · intro m x hx
    have hm := h.allocs_live m x hx.1
    have hne := hx.2
    simp only [Live, Ledger.done] at hm ⊢
    omega
  · intro m x hx hs
    rcases ((hsync x).1 hs).1 with hs | ha
    · exact h.allocs_synced m x hx.1 hs
    · exact hx.2 (h.allocs_inj _ _ x hx.1 ha)
  · rintro m i x hx (⟨-, hd⟩ | ⟨-, hd⟩)
    · rcases h.freed_sub x hd with hs | ha
      · exact h.allocs_synced m x hx.1 hs
      · exact hx.2 (h.allocs_inj _ _ x hx.1 (h.written_sub x ha))
    · exact h.allocs_deferred m i x hx.1 hd
  · rintro i x (⟨-, hd⟩ | ⟨-, hd⟩)
    · rcases h.freed_sub x hd with hs | ha
      · exact h.synced_sub x hs
      · exact h.allocs_sub _ x (h.written_sub x ha)
    · exact h.deferred_sub i x hd
  · rintro i x (⟨-, hd⟩ | ⟨-, hd⟩) hs
    · exact ((hsync x).1 hs).2 hd
    · rcases ((hsync x).1 hs).1 with hs | ha
      · exact h.deferred_synced i x hd hs
      · exact h.allocs_deferred _ i x ha hd
  · rintro i x (⟨rfl, hd⟩ | ⟨hi, hd⟩)
    · exact ⟨L.txg, h.freed_freedIn x hd, rfl, by simp [Ledger.done], by simp [Ledger.done],
        by simp [Ledger.done]⟩
    obtain ⟨f, hff, rfl, hlt, hle, -⟩ := h.deferred_freedIn i x hd
    -- the other parity: freed in the group before this one
    have hft : f + 1 = L.txg := by omega
    refine ⟨f, hff, rfl, ?_, ?_, fun _ => ?_⟩
    · simp only [Ledger.done]
      omega
    · simp only [Ledger.done]
      omega
    · exact .inl hft
  · rintro x ⟨⟩
  · rintro x ⟨⟩
  · rintro x ⟨⟩
  · intro m x hx
    have hm := h.frees_live m x hx
    have hne := later hx
    simp only [Live, Ledger.done] at hm ⊢
    omega
  · intro m x hx
    have hnf := h.frees_freed m x hx
    rcases h.frees_sub m x hx with hs | ⟨k, hk, ha⟩
    · exact .inl ((hsync x).2 ⟨.inl hs, hnf⟩)
    · by_cases hkt : k = L.txg
      · exact .inl ((hsync x).2 ⟨.inr (hkt ▸ ha), hnf⟩)
      · exact .inr ⟨k, hk, ha, hkt⟩
  · rintro m x - ⟨⟩
  · intro x m ho
    have hnf := (h.owner_freed x m ho).1
    rcases h.owner_in x m ho with ⟨hm, hs⟩ | ha
    · exact .inl ⟨lt_succ_of_lt hm, (hsync x).2 ⟨.inl hs, hnf⟩⟩
    · by_cases hmt : m = L.txg
      · subst hmt
        exact .inl ⟨lt_succ_self _, (hsync x).2 ⟨.inr ha, hnf⟩⟩
      · exact .inr ⟨ha, hmt⟩
  · intro x m ho
    refine ⟨?_, (h.owner_freed x m ho).2⟩
    rintro ⟨⟩
  · intro x f hff
    replace hff : L.freedIn x = some f := hff
    rcases h.freedIn_in x f hff with hx | hx | hx | ⟨h1, h2⟩
    · exact .inl hx
    · have : f = L.txg := by
        rw [h.freed_freedIn x hx] at hff
        exact (Option.some.inj hff).symm
      exact .inr (.inr (.inl (.inl ⟨by rw [this], hx⟩)))
    · by_cases hp : f % 2 = L.txg % 2
      · -- freed two groups ago: this group is the second one since
        obtain ⟨f', hf', -, hlt, hle, hd⟩ := h.deferred_freedIn _ x hx
        obtain rfl : f = f' := by
          rw [hff] at hf'
          exact Option.some.inj hf'
        have hft : L.txg = f + 2 := by omega
        exact .inr (.inr (.inr ⟨.inr (hd hft), .inl hft.symm⟩))
      · exact .inr (.inr (.inl (.inr ⟨hp, hx⟩)))
    · exact .inr (.inr (.inr ⟨.inr h1, .inr h2⟩))

theorem Ok.skip (h : L.Ok U) (ha : L.allocs L.txg = ∅) (hf : L.frees L.txg = ∅)
    (hfreed : L.freed = ∅) (hd : ∀ i, L.deferred i = ∅) : L.skip.Ok U := by
  have hw : L.written = ∅ := subset_empty_iff.1 fun x hx => ha ▸ h.written_sub x hx
  have hne : ∀ {n x}, x ∈ L.allocs n → n ≠ L.txg := by
    rintro n x hx rfl
    rwa [ha] at hx
  have hne' : ∀ {n x}, x ∈ L.frees n → n ≠ L.txg := by
    rintro n x hx rfl
    rwa [hf] at hx
  refine ⟨h.synced_sub, h.allocs_sub, ?_, h.allocs_inj, h.allocs_synced, h.allocs_deferred,
    h.deferred_sub, h.deferred_synced, ?_, ?_, h.freed_sub, ?_, ?_, h.frees_sub, h.frees_freedIn,
    h.frees_freed, ?_, h.owner_freed, h.freedIn_in⟩
  · intro n x hx
    have hn := h.allocs_live n x hx
    have := hne hx
    simp only [Live, Ledger.skip] at hn ⊢
    omega
  · intro i x hx
    rw [show L.skip.deferred i = ∅ from hd i] at hx
    exact hx.elim
  · intro x hx
    rw [show L.skip.written = ∅ from hw] at hx
    exact hx.elim
  · intro x hx
    rw [show L.skip.freed = ∅ from hfreed] at hx
    exact hx.elim
  · intro n x hx
    have hn := h.frees_live n x hx
    have := hne' hx
    simp only [Live, Ledger.skip] at hn ⊢
    omega
  · intro x m ho
    exact (h.owner_in x m ho).imp_left fun ⟨hm, hs⟩ => ⟨lt_succ_of_lt hm, hs⟩

/-! ## What the operations do to the sets of the maps -/

theorem alloc_avail : (L.alloc R n).avail U = L.avail U \ R := by
  ext x
  simp only [avail, pending, Ledger.alloc, mem_sdiff, mem_ofPred_eq, not_exists, not_or, not_and]
  constructor
  · rintro ⟨h, h'⟩
    exact ⟨⟨h, fun m => (h' m).1⟩, (h' n).2 rfl⟩
  · rintro ⟨⟨h, h'⟩, hR⟩
    exact ⟨h, fun m => ⟨h' m, fun _ => hR⟩⟩

theorem Ok.alloc_unwritten (h : L.Ok U) (hR : R ⊆ L.avail U) :
    (L.alloc R n).unwritten n = L.unwritten n ∪ R := by
  ext x
  have hw : x ∈ R → x ∉ L.written := fun hx hw => (h.avail_notMem (hR hx)).2.2.2 _ (h.written_sub x hw)
  simp only [unwritten, Ledger.alloc, mem_ofPred_eq, mem_union, true_and]
  tauto

theorem alloc_unwritten_of_ne (hm : m ≠ n) : (L.alloc R n).unwritten m = L.unwritten m := by
  simp [unwritten, Ledger.alloc, hm]

theorem Ok.freeNow_avail (h : L.Ok U) (hR : R ⊆ L.unwritten n) :
    (L.freeNow R n).avail U = L.avail U ∪ R := by
  ext x
  constructor
  · intro hx
    by_cases hxR : x ∈ R
    · exact .inr hxR
    · refine .inl ⟨hx.1, fun ⟨m, hm⟩ => hx.2 ⟨m, hm, fun h' => hxR h'.2⟩⟩
  rintro (hx | hx)
  · exact ⟨hx.1, fun ⟨m, hm⟩ => hx.2 ⟨m, hm.1⟩⟩
  · have ha := (hR hx).1
    refine ⟨⟨⟨⟨h.allocs_sub n x ha, h.allocs_synced n x ha⟩, h.allocs_deferred n 0 x ha⟩,
      h.allocs_deferred n 1 x ha⟩, ?_⟩
    rintro ⟨m, hm, hne⟩
    exact hne ⟨h.allocs_inj m n x hm ha, hx⟩

theorem freeNow_unwritten : (L.freeNow R n).unwritten n = L.unwritten n \ R := by
  ext x
  simp only [unwritten, Ledger.freeNow, mem_ofPred_eq, mem_sdiff, true_and]
  tauto

theorem freeNow_unwritten_of_ne (hm : m ≠ n) : (L.freeNow R n).unwritten m = L.unwritten m := by
  simp [unwritten, Ledger.freeNow, hm]

theorem free_frees : (L.free R n).frees n = L.frees n ∪ R := by
  ext x
  simp [Ledger.free]

theorem free_frees_of_ne (hm : m ≠ n) : (L.free R n).frees m = L.frees m := by
  simp [Ledger.free, hm]

/-! ## What a sync writes -/

section Sync

variable {x : α}

theorem Ok.not_avail (h : L.Ok U) : x ∈ U \ L.avail U ↔
    x ∈ L.synced ∨ x ∈ L.deferred 0 ∨ x ∈ L.deferred 1 ∨ ∃ n, x ∈ L.allocs n := by
  have h1 := h.synced_sub x
  have h2 := h.deferred_sub 0 x
  have h3 := h.deferred_sub 1 x
  have h4 : (∃ n, x ∈ L.allocs n) → x ∈ U := fun ⟨n, hn⟩ => h.allocs_sub n x hn
  simp only [avail, pending, mem_sdiff, mem_ofPred_eq]
  tauto

theorem Ok.allocs_txg (h : L.Ok U) : x ∈ L.allocs L.txg ↔ x ∈ L.written ∨ x ∈ L.unwritten L.txg := by
  have := h.written_sub x
  simp only [unwritten, mem_ofPred_eq, true_imp_iff]
  tauto

theorem unwritten_of_ne (hn : n ≠ L.txg) : L.unwritten n = L.allocs n := by
  simp [unwritten, hn]

theorem mem_write_syncing : x ∈ L.write.syncing ↔ (x ∈ L.synced ∨ x ∈ L.allocs L.txg) ∧
    x ∉ L.write.freed := Iff.rfl

theorem Ok.frees_txg (h : L.Ok U) (hx : x ∈ L.frees L.txg) : x ∈ L.syncing ∪ L.unwritten L.txg := by
  have hnf := h.frees_freed _ x hx
  rcases h.frees_sub _ x hx with hs | ⟨m, hm, ha⟩
  · exact .inl ⟨.inl hs, hnf⟩
  · obtain rfl : m = L.txg := le_antisymm hm (h.allocs_live m x ha).1
    rcases h.allocs_txg.1 ha with hw | hu
    · exact .inl ⟨.inr hw, hnf⟩
    · exact .inr hu

theorem Ok.unwritten_disjoint (h : L.Ok U) : Disjoint (L.unwritten L.txg) L.syncing := by
  refine disjoint_left.2 fun x hx hs => ?_
  rcases hs.1 with hs | hw
  · exact h.allocs_synced _ x hx.1 hs
  · exact hx.2 rfl hw

theorem Ok.append_syncing (h : L.Ok U) :
    (L.syncing ∪ L.unwritten L.txg) \ L.frees L.txg = L.write.syncing := by
  ext x
  have hu : x ∈ L.unwritten L.txg → x ∉ L.freed := fun hx hf =>
    (h.freed_sub x hf).elim (h.allocs_synced _ x hx.1) (hx.2 rfl)
  rw [mem_write_syncing, h.allocs_txg]
  simp only [syncing, Ledger.write, mem_union, mem_sdiff]
  tauto

theorem Ok.write_freed_sub (h : L.Ok U) (hx : x ∈ L.write.freed) :
    x ∈ L.synced ∨ x ∈ L.allocs L.txg := h.write.freed_sub x hx

theorem Ok.deferred_disjoint (h : L.Ok U) (h0 : x ∈ L.deferred 0) : x ∉ L.deferred 1 := by
  intro h1
  obtain ⟨f, hf, hf0, -⟩ := h.deferred_freedIn 0 x h0
  obtain ⟨f', hf', hf1, -⟩ := h.deferred_freedIn 1 x h1
  rw [hf] at hf'
  cases hf'
  omega

/-- What a region holds besides what is allocated once `txg` is written: the available
space, the frees of `txg`, the deferred frees and the allocations of later groups. -/
def parts (U : Set α) (L : Ledger α) : List (Set α) :=
  [L.avail U, L.write.freed, L.deferred 0, L.deferred 1, L.allocs (L.txg + 1), L.allocs (L.txg + 2)]

theorem Ok.parts_sub (h : L.Ok U) : ∀ P ∈ L.parts U, P ⊆ U := by
  intro P hP x hx
  simp only [parts, List.mem_cons, List.not_mem_nil, or_false] at hP
  rcases hP with rfl | rfl | rfl | rfl | rfl | rfl
  · exact (h.avail_notMem hx).1
  · exact (h.write_freed_sub hx).elim (h.synced_sub x) (h.allocs_sub _ x)
  · exact h.deferred_sub 0 x hx
  · exact h.deferred_sub 1 x hx
  · exact h.allocs_sub _ x hx
  · exact h.allocs_sub _ x hx

theorem Ok.parts_disjoint (h : L.Ok U) : (L.parts U).Pairwise Disjoint := by
  have havail : ∀ P : Set α, (∀ x ∈ P, x ∈ L.synced ∨ (∃ i, x ∈ L.deferred i) ∨
      ∃ n, x ∈ L.allocs n) → Disjoint (L.avail U) P := fun P hP =>
    disjoint_left.2 fun x hx hx' => by
      obtain ⟨-, hs, hd, ha⟩ := h.avail_notMem hx
      rcases hP x hx' with h' | ⟨i, h'⟩ | ⟨n, h'⟩
      · exact hs h'
      · exact hd i h'
      · exact ha n h'
  have hfreed : ∀ P : Set α, (∀ x ∈ P, x ∉ L.synced ∧ x ∉ L.allocs L.txg) →
    Disjoint L.write.freed P := fun P hP =>
    disjoint_left.2 fun x hx hx' => (h.write_freed_sub hx).elim (hP x hx').1 (hP x hx').2
  have hlater : ∀ n, n ≠ L.txg → ∀ x ∈ L.allocs n, x ∉ L.synced ∧ x ∉ L.allocs L.txg :=
    fun n hn x hx => ⟨h.allocs_synced n x hx, fun hx' => hn (h.allocs_inj _ _ x hx hx')⟩
  have hdefer : ∀ i, ∀ x ∈ L.deferred i, x ∉ L.synced ∧ x ∉ L.allocs L.txg := fun i x hx =>
    ⟨h.deferred_synced i x hx, fun hx' => h.allocs_deferred _ i x hx' hx⟩
  have hda : ∀ i n, Disjoint (L.deferred i) (L.allocs n) := fun i n =>
    disjoint_left.2 fun x hx hx' => h.allocs_deferred n i x hx' hx
  simp only [parts, List.pairwise_cons, List.mem_cons, List.not_mem_nil, or_false, forall_eq_or_imp,
    forall_eq]
  refine ⟨⟨?_, ?_, ?_, ?_, ?_⟩, ⟨?_, ?_, ?_, ?_⟩, ⟨?_, hda 0 _, hda 0 _⟩, ⟨hda 1 _, hda 1 _⟩, ?_,
    by simp, .nil⟩
  · exact havail _ fun x hx => (h.write_freed_sub hx).imp_right fun h' => .inr ⟨_, h'⟩
  · exact havail _ fun x hx => .inr (.inl ⟨0, hx⟩)
  · exact havail _ fun x hx => .inr (.inl ⟨1, hx⟩)
  · exact havail _ fun x hx => .inr (.inr ⟨_, hx⟩)
  · exact havail _ fun x hx => .inr (.inr ⟨_, hx⟩)
  · exact hfreed _ (hdefer 0)
  · exact hfreed _ (hdefer 1)
  · exact hfreed _ (hlater _ (by omega))
  · exact hfreed _ (hlater _ (by omega))
  · exact disjoint_left.2 fun x => h.deferred_disjoint
  · refine disjoint_left.2 fun x hx hx' => ?_
    have := h.allocs_inj _ _ x hx hx'
    omega

theorem Ok.mem_rest (h : L.Ok U) : x ∈ L.write.syncing ↔ x ∈ U ∧ ∀ P ∈ L.parts U, x ∉ P := by
  constructor
  · rintro ⟨hor, hnf⟩
    have hU : x ∈ U := hor.elim (h.synced_sub x) (h.allocs_sub _ x)
    refine ⟨hU, fun P hP hx => ?_⟩
    simp only [parts, List.mem_cons, List.not_mem_nil, or_false] at hP
    have hlater : ∀ n, n ≠ L.txg → x ∉ L.allocs n := fun n hn hx => hor.elim
      (h.allocs_synced n x hx) fun hx' => hn (h.allocs_inj _ _ x hx hx')
    have hdefer : ∀ i, x ∉ L.deferred i := fun i hx => hor.elim (h.deferred_synced i x hx)
      fun hx' => h.allocs_deferred _ i x hx' hx
    rcases hP with rfl | rfl | rfl | rfl | rfl | rfl
    · exact hor.elim (h.avail_notMem hx).2.1 ((h.avail_notMem hx).2.2.2 _)
    · exact hnf hx
    · exact hdefer 0 hx
    · exact hdefer 1 hx
    · exact hlater _ (by omega) hx
    · exact hlater _ (by omega) hx
  · rintro ⟨hU, hP⟩
    simp only [parts, List.mem_cons, List.not_mem_nil, or_false, forall_eq_or_imp, forall_eq] at hP
    obtain ⟨ha, hf, h0, h1, hn1, hn2⟩ := hP
    refine ⟨?_, hf⟩
    rcases h.not_avail.1 ⟨hU, ha⟩ with hs | h0' | h1' | ⟨n, hn⟩
    · exact .inl hs
    · exact absurd h0' h0
    · exact absurd h1' h1
    have hlive := h.allocs_live n x hn
    have : n = L.txg ∨ n = L.txg + 1 ∨ n = L.txg + 2 := by
      have := hlive.1
      have := hlive.2
      omega
    rcases this with rfl | rfl | rfl
    · exact .inr hn
    · exact absurd hn hn1
    · exact absurd hn hn2

theorem Ok.write_eq_self (h : L.Ok U) (hu : L.unwritten L.txg = ∅) (hf : L.frees L.txg = ∅) :
    L.write = L := by
  have hw : L.allocs L.txg = L.written := by
    ext x
    simp [h.allocs_txg, hu]
  have hfrees : (fun m => {x | x ∈ L.frees m ∧ m ≠ L.txg}) = L.frees := by
    ext x
    refine ⟨And.left, fun hx => ⟨hx, ?_⟩⟩
    rintro rfl
    rwa [hf] at hx
  rw [Ledger.write, hw, hf, union_empty, hfrees]

theorem done_syncing : L.done.syncing = L.syncing := by
  simp [syncing, done]

theorem Ok.done_avail (h : L.Ok U) (hw : L.written = L.allocs L.txg) :
    L.done.avail U = L.avail U ∪ L.deferred (L.txg % 2) := by
  ext x
  have hs := mem_done_synced hw (x := x)
  have hfs := h.freed_sub x
  have hd := fun i => h.deferred_sub i x
  have hds := fun i => h.deferred_synced i x
  have hda : ∀ i, x ∈ L.deferred i → ∀ n, x ∉ L.allocs n := fun i hx n hn => h.allocs_deferred n i x hn hx
  have hdd := h.deferred_disjoint (x := x)
  have hpend : (∃ n, x ∈ L.done.allocs n) ↔ ∃ n, x ∈ L.allocs n ∧ n ≠ L.txg := Iff.rfl
  have hall : (∃ n, x ∈ L.allocs n) ↔ x ∈ L.allocs L.txg ∨ ∃ n, x ∈ L.allocs n ∧ n ≠ L.txg := by
    constructor
    · rintro ⟨n, hn⟩
      by_cases hnt : n = L.txg
      · exact .inl (hnt ▸ hn)
      · exact .inr ⟨n, hn, hnt⟩
    · rintro (hn | ⟨n, hn, -⟩)
      · exact ⟨_, hn⟩
      · exact ⟨n, hn⟩
  have hdx : ∀ i, x ∈ L.done.deferred i ↔
      i = L.txg % 2 ∧ x ∈ L.freed ∨ i ≠ L.txg % 2 ∧ x ∈ L.deferred i := fun _ => Iff.rfl
  simp only [avail, pending, mem_sdiff, mem_ofPred_eq, mem_union, hs, hpend, hall, hdx]
  rcases mod_two_eq_zero_or_one L.txg with hp | hp <;> rw [hp] <;> simp <;> grind

end Sync

end Ledger

end Osol.Zfs
