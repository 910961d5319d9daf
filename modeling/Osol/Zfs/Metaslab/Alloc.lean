import Osol.Zfs.Metaslab.Refine

/-!
# Allocations, claims and frees of a metaslab

Each call changes one map of a txg slot, or that map and the in-core map, and puts the
metaslab on the dirty list of the group when the map was empty before.
-/

namespace Osol.Zfs

open Function Set Ledger

variable {zfsRecover : Bool} {g : Region} {ms : Metaslab} {L L' : Ledger ℕ} {syncedObj : Object}
  {n offset size : ℕ}

/-! ## One slot changes -/

section Slots

variable {allocmap freemap : ℕ → SpaceMap} {dirty : ℕ → Bool} {sm : SpaceMap}

theorem GroupMaps.setAlloc (h : GroupMaps g allocmap freemap L) (hn : L.Live n)
    (hsm : sm.Plain g (L'.unwritten n)) (ht : L'.txg = L.txg)
    (ha : ∀ m, m ≠ n → L'.unwritten m = L.unwritten m) (hf : ∀ m, L'.freeAt m = L.freeAt m) :
    GroupMaps g (update allocmap (txgSlot n) sm) freemap L' := by
  refine ⟨fun m hm hm' => ?_, fun m hm hm' => ?_⟩
  · rw [ht] at hm hm'
    rw [update_slot _ _ hm hm' hn.1 (by have := hn.2; omega)]
    split
    · next heq => exact heq ▸ hsm
    · next hne => exact ha m hne ▸ h.alloc m hm hm'
  · rw [ht] at hm hm'
    exact hf m ▸ h.free m hm hm'

theorem GroupMaps.setFree (h : GroupMaps g allocmap freemap L) (hn : L.Live n)
    (hsm : sm.Plain g (L'.freeAt n)) (ht : L'.txg = L.txg)
    (ha : ∀ m, L'.unwritten m = L.unwritten m) (hf : ∀ m, m ≠ n → L'.freeAt m = L.freeAt m) :
    GroupMaps g allocmap (update freemap (txgSlot n) sm) L' := by
  refine ⟨fun m hm hm' => ?_, fun m hm hm' => ?_⟩
  · rw [ht] at hm hm'
    exact ha m ▸ h.alloc m hm hm'
  · rw [ht] at hm hm'
    rw [update_slot _ _ hm hm' hn.1 (by have := hn.2; omega)]
    split
    · next heq => exact heq ▸ hsm
    · next hne => exact hf m hne ▸ h.free m hm hm'

theorem Listed.mark (h : Listed dirty L) (hn : L.Live n) (ht : L'.txg = L.txg)
    (hwork : ∀ m, m ≠ n → L'.unwritten m ∪ L'.frees m = L.unwritten m ∪ L.frees m)
    (hd : L'.deferred = L.deferred) (hw : L'.written = L.written) (hf : L'.freed = L.freed) :
    Listed (update dirty (txgSlot n) true) L' := by
  have hn' := hn.2
  refine ⟨fun m hm hne => ?_, fun i hi => ?_, fun hc => ?_⟩
  · have hm1 : L.txg ≤ m := ht ▸ hm.1
    have hm2 : m ≤ L.txg + 2 := ht ▸ hm.2
    rw [update_slot _ _ hm1 (by omega) hn.1 (by omega)]
    split
    · rfl
    · next hmn => exact h.work m ⟨hm1, hm2⟩ (hwork m hmn ▸ hne)
  · rw [hd] at hi
    rw [ht, update_apply, update_apply]
    rcases h.defer i hi with hs | hs <;> simp [hs]
  · rw [ht, update_slot _ _ (by omega) le_rfl hn.1 (by omega), if_neg (by omega)] at hc
    rw [hw, hf]
    exact h.clean hc

end Slots

theorem Metaslab.vdevDirty_eq_self (h : ms.msDirty (txgSlot n) = true) : ms.vdevDirty n = ms := by
  rw [Metaslab.vdevDirty, ← h, update_eq_self]

theorem Listed.vdevDirty (h : Listed ms.msDirty L) (hn : L.Live n) {sm : SpaceMap} {S : Set ℕ}
    (hsm : sm.Carries g S) (hS : S ⊆ L.unwritten n ∪ L.frees n) :
    (if sm.smSpace = 0 then ms.vdevDirty n else ms) = ms.vdevDirty n := by
  split
  · rfl
  · next hne =>
    rw [hsm.space_eq_zero, ← Ne, ← nonempty_iff_ne_empty] at hne
    exact (Metaslab.vdevDirty_eq_self (h.work n hn (hne.mono hS))).symm

/-! ## Allocations and claims -/

section Alloc

variable (hr : g.Range offset size)
include hr

theorem recordAlloc_spec (ms : Metaslab) (zfsRecover : Bool)
    (hg : GroupMaps g ms.msAllocmap ms.msFreemap L) (hl : Listed ms.msDirty L) (hn : L.Live n)
    (hd : Disjoint (Ico offset (offset + size)) (L.unwritten n)) :
    ∃ am, recordAlloc zfsRecover offset size n ms = some ((ms.vdevDirty n).setAllocmap (txgSlot n) am) ∧
      am.Plain g (L.unwritten n ∪ Ico offset (offset + size)) := by
  have hn' := hn.2
  have hp := hg.alloc n hn.1 (by omega)
  obtain ⟨am, hadd, hb⟩ := hp.toCarries.call .add zfsRecover hr hd
  refine ⟨am, ?_, hp.of_becomes hb⟩
  simp only [SegOp.call] at hadd
  simp only [recordAlloc, hl.vdevDirty hn hp.toCarries subset_union_left]
  rw [show (ms.vdevDirty n).msAllocmap = ms.msAllocmap from rfl, hadd]
  rfl

section

variable (h : Refines zfsRecover g ms L syncedObj) (hl : ms.msMap.smLoaded = true)
include h hl

theorem Refines.take (hn : L.Live n) (hsub : Ico offset (offset + size) ⊆ ms.msMap.denote) :
    ∃ sm ms', spaceMapRemove zfsRecover ms.msMap offset size = some sm ∧
      recordAlloc zfsRecover offset size n { ms with msMap := sm } = some ms' ∧
      Refines zfsRecover g ms' (L.alloc (Ico offset (offset + size)) n) syncedObj := by
  obtain ⟨hload, hloading, hc⟩ := h.inCore.of_loaded hl
  rw [hc.denote] at hsub
  have hfresh : ∀ x ∈ Ico offset (offset + size), x ∉ L.allocs n :=
    fun x hx => (h.ok.avail_notMem (hsub hx)).2.2.2 n
  obtain ⟨sm, hrem, hb⟩ := hc.call .remove zfsRecover hr hsub
  obtain ⟨am, hrec, hp⟩ := recordAlloc_spec hr { ms with msMap := sm } zfsRecover h.groups
    h.listed hn (disjoint_left.2 fun x hx hx' => hfresh x hx hx'.1)
  refine ⟨sm, _, hrem, hrec, h.ok.alloc hn hsub, h.pos, ?_, h.defers, h.logs, ?_, ?_, ?_⟩
  · refine h.groups.setAlloc hn ?_ rfl (fun m hm => alloc_unwritten_of_ne hm) fun _ => rfl
    rwa [h.ok.alloc_unwritten hsub]
  · have hc' := hc.of_becomes hb
    rw [SegOp.apply, ← alloc_avail] at hc'
    rw [hload]
    exact .loaded (hb.frame.loaded.trans hl) (hb.frame.loading.trans hloading) hc'
  · exact fun ha => hb.frame.loaded.trans (h.active ha)
  · refine h.listed.mark hn rfl (fun m hm => ?_) rfl rfl rfl
    rw [alloc_unwritten_of_ne hm]
    rfl

theorem Refines.metaslabGroupAlloc (hn : L.Live n)
    (hsub : Ico offset (offset + size) ⊆ ms.msMap.denote) :
    ∃ ms', metaslabGroupAlloc zfsRecover offset size n ms = some ms' ∧
      Refines zfsRecover g ms' (L.alloc (Ico offset (offset + size)) n) syncedObj := by
  obtain ⟨sm, ms', hrem, hrec, h'⟩ := h.take hr hl hn hsub
  exact ⟨ms', by rw [Zfs.metaslabGroupAlloc, hrem]; exact hrec, h'⟩

theorem Refines.contains : ∃ b, spaceMapContains ms.msMap offset size = some b ∧
      (b = true ↔ Ico offset (offset + size) ⊆ ms.msMap.denote) := by
  obtain ⟨-, -, hc⟩ := h.inCore.of_loaded hl
  refine hc.inv.contains (lt_of_le_of_lt hr.stop_le g.stop_lt') hr.size_ne ?_ ?_
  · rw [hc.on.shift]
    exact hr.offset_dvd
  · rw [hc.on.shift]
    exact hr.size_dvd

theorem Refines.claim_of_subset (hn : L.Live n)
    (hsub : Ico offset (offset + size) ⊆ ms.msMap.denote) :
    ∃ ms', metaslabClaimDva zfsRecover true offset size n ms = some (ms', 0) ∧
      Refines zfsRecover g ms' (L.alloc (Ico offset (offset + size)) n) syncedObj := by
  obtain ⟨b, hb, hbs⟩ := h.contains hr hl
  obtain rfl : b = true := hbs.2 hsub
  have hn0 : n ≠ 0 := by
    have := h.pos
    have := hn.1
    omega
  obtain ⟨sm, ms', hrem, hrec, h'⟩ := h.take hr hl hn hsub
  refine ⟨ms', ?_, h'⟩
  simp [metaslabClaimDva, hb, hn0, spaceMapClaim, hrem, hrec]

theorem Refines.claim_of_not (hno : n = 0 ∨ ¬ Ico offset (offset + size) ⊆ ms.msMap.denote) :
    ∃ error, metaslabClaimDva zfsRecover true offset size n ms = some (ms, error) := by
  obtain ⟨b, hb, hbs⟩ := h.contains hr hl
  cases b with
  | false => exact ⟨enoent, by simp [metaslabClaimDva, hb]⟩
  | true =>
    have hn0 : n = 0 := hno.resolve_right fun h' => h' (hbs.1 rfl)
    exact ⟨0, by simp [metaslabClaimDva, hb, hn0]⟩

end

end Alloc

/-! ## Frees -/

section Free

variable (hr : g.Range offset size)
include hr

section

variable {spaFreezeTxg : ℕ} (h : Refines zfsRecover g ms L syncedObj) (hz : n ≤ spaFreezeTxg)
  (hn : L.Live n)
include h hz hn

theorem Refines.free (hown : ∀ x ∈ Ico offset (offset + size), ∃ m ≤ n, L.owner x = some m) :
    ∃ ms', metaslabFreeDva zfsRecover spaFreezeTxg offset size n false ms = some ms' ∧
      Refines zfsRecover g ms' (L.free (Ico offset (offset + size)) n) syncedObj := by
  have hn' := hn.2
  have hat : ∀ L' : Ledger ℕ, L'.txg = L.txg → L'.freeAt n = L'.frees n := fun L' ht => by
    rw [Ledger.freeAt, if_neg (by rw [ht]; omega)]
  have hp := h.groups.free n hn.1 (by omega)
  rw [hat L rfl] at hp
  obtain ⟨fm, hadd, hb⟩ := hp.toCarries.call .add zfsRecover hr (disjoint_left.2 fun x hx => by
      obtain ⟨m, -, ho⟩ := hown x hx
      exact (h.ok.owner_freed x m ho).2 n)
  refine ⟨(ms.vdevDirty n).setFreemap (txgSlot n) fm, ?_, h.ok.free hn hown, h.pos, ?_, h.defers,
    h.logs, ?_, h.active, ?_⟩
  · simp only [SegOp.call] at hadd
    simp only [metaslabFreeDva, if_neg (not_lt.2 hz), h.listed.vdevDirty hn hp.toCarries subset_union_right]
    rw [show (ms.vdevDirty n).msFreemap = ms.msFreemap from rfl, hadd]
    rfl
  · refine h.groups.setFree hn ?_ rfl (fun _ => rfl) fun m hm => ?_
    · rw [hat (L.free _ n) rfl, free_frees]
      exact hp.of_becomes hb
    · rw [Ledger.freeAt, Ledger.freeAt, free_frees_of_ne hm]
      rfl
  · exact h.inCore.congr rfl rfl rfl
  · refine h.listed.mark hn rfl (fun m hm => ?_) rfl rfl rfl
    rw [free_frees_of_ne hm]
    rfl

theorem Refines.freeNow (hown : ∀ x ∈ Ico offset (offset + size), L.owner x = some n)
    (hsub : Ico offset (offset + size) ⊆ (ms.msAllocmap (txgSlot n)).denote) :
    ∃ ms', metaslabFreeDva zfsRecover spaFreezeTxg offset size n true ms = some ms' ∧
      Refines zfsRecover g ms' (L.freeNow (Ico offset (offset + size)) n) syncedObj := by
  have hn' := hn.2
  have hp := h.groups.alloc n hn.1 (by omega)
  rw [hp.denote] at hsub
  -- something is allocated, so the map is in core
  have hl : ms.msMap.smLoaded = true := by
    by_contra hl
    have hx : offset ∈ L.unwritten n := hsub ⟨le_rfl, by have := hr.size_ne; omega⟩
    rw [Bool.not_eq_true] at hl
    have := (h.inCore.of_not_loaded hl).unused n ▸ hx.1
    exact this
  obtain ⟨hload, hloading, hc⟩ := h.inCore.of_loaded hl
  obtain ⟨am, hrem, hb⟩ := hp.toCarries.call .remove zfsRecover hr hsub
  obtain ⟨sm, hadd, hb'⟩ := hc.call .add zfsRecover hr
    (disjoint_left.2 fun x hx hx' => (h.ok.avail_notMem hx').2.2.2 n (hsub hx).1)
  simp only [SegOp.call, SegOp.apply] at hrem hadd hb hb'
  refine ⟨{ ms.setAllocmap (txgSlot n) am with msMap := sm }, ?_,
    h.ok.freeNow fun x hx => ⟨hown x hx, hsub hx⟩, h.pos, ?_, h.defers, h.logs, ?_, ?_, ?_⟩
  · simp [metaslabFreeDva, not_lt.2 hz, hrem, spaceMapFree, hadd]
  · refine h.groups.setAlloc hn ?_ rfl (fun m hm => freeNow_unwritten_of_ne hm) fun _ => rfl
    rw [freeNow_unwritten]
    exact hp.of_becomes hb
  · have hc' := hc.of_becomes hb'
    rw [← h.ok.freeNow_avail hsub] at hc'
    change InCore _ _ _ _ _ _ sm ms.msLoad
    rw [hload]
    exact .loaded (hb'.frame.loaded.trans hl) (hb'.frame.loading.trans hloading) hc'
  · exact fun ha => hb'.frame.loaded.trans (h.active ha)
  have hdirty : ms.msDirty = update ms.msDirty (txgSlot n) true := by
    rw [← h.listed.work n hn ⟨offset, .inl (hsub ⟨le_rfl, by have := hr.size_ne; omega⟩)⟩, update_eq_self]
  change Listed ms.msDirty _
  rw [hdirty]
  refine h.listed.mark hn rfl (fun m hm => ?_) rfl rfl rfl
  rw [freeNow_unwritten_of_ne hm]
  rfl

end

end Free

end Osol.Zfs
