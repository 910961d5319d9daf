import Osol.Zfs.Metaslab.Sync

/-!
# The end of a transaction group

`metaslab_sync_done` returns the older deferred frees to the in-core map, defers the
frees of the group, and makes the written log the synced one. It also evicts a map that
is no longer active, and is what a metaslab starts from.
-/

namespace Osol.Zfs

open Osol.Lib Function Set Option Ledger Nat

variable {zfsRecover : Bool} {g : Region} {ms : Metaslab} {L : Ledger ℕ} {syncedObj : Object}
  {order : SpaceMap → List ℕ}

theorem SpaceMap.Carries.vacate {sm md : SpaceMap} {A S : Set ℕ} (h : sm.Carries g A)
    (hmd : md.Carries g S) (o : SegOp) (zfsRecover : Bool) {l : List ℕ} (hl : l.Perm sm.smRoot)
    (hp : o.Pre S A) :
    ∃ md', spaceMapVacate l (some (o.call zfsRecover)) sm md =
        some ({ sm with smRoot := [], smSpace := 0 }, md') ∧ md.Becomes md' (o.apply S A) := by
  obtain ⟨md', hr, hb⟩ := h.forSegs hmd o zfsRecover hl hp
  exact ⟨md', by simp only [spaceMapVacate, hr, bind_eq_bind, bind_some], hb⟩

/-! ## What the group leaves -/

theorem Listed.nothing {dirty : ℕ → Bool} (h : Listed dirty L)
    (hd : dirty (txgSlot L.txg) = false) : L.unwritten L.txg = ∅ ∧ L.frees L.txg = ∅ := by
  rw [← union_empty_iff, ← not_nonempty_iff_eq_empty]
  intro hne
  rw [h.work L.txg ⟨le_rfl, by omega⟩ hne] at hd
  cases hd

variable {U : Set ℕ}

theorem Ledger.Ok.written_of_nothing (h : L.Ok U) (hu : L.unwritten L.txg = ∅) :
    L.written = L.allocs L.txg := by
  ext x
  simp [h.allocs_txg, hu]

variable {n : ℕ}

theorem Ledger.Ok.allocs_eq_empty (h : L.Ok U) (hn : L.txg + 2 < n) : L.allocs n = ∅ :=
  eq_empty_of_forall_notMem fun x hx => absurd (h.allocs_live n x hx).2 (by omega)

theorem Ledger.Ok.frees_eq_empty (h : L.Ok U) (hn : L.txg + 2 < n) : L.frees n = ∅ :=
  eq_empty_of_forall_notMem fun x hx => absurd (h.frees_live n x hx).2 (by omega)

theorem Ledger.done_unwritten (hn : n ≠ L.txg) : L.done.unwritten n = L.unwritten n := by
  simp [Ledger.unwritten, Ledger.done, hn]

/-- The slots move on by one group: the slot of `txg` becomes that of the frees on their
way to disk, and the slot of those, once vacated, that of the newest group. -/
theorem GroupMaps.done {allocmap freemap : ℕ → SpaceMap} (h : GroupMaps g allocmap freemap L)
    (hok : L.Ok g.whole) (hu : L.unwritten L.txg = ∅) (hf : L.frees L.txg = ∅) {fm : SpaceMap}
    (hfm : fm.Plain g ∅) :
    GroupMaps g allocmap (update freemap (txgSlot (L.txg + 3)) fm) L.done := by
  refine ⟨fun n hn hn' => ?_, fun n hn hn' => ?_⟩ <;>
    rw [show L.done.txg = L.txg + 1 from rfl] at hn hn'
  · by_cases hn4 : n = L.txg + 4
    · subst hn4
      rw [txgSlot_add_four, done_unwritten (by omega), unwritten_of_ne (by omega),
        hok.allocs_eq_empty (by omega), ← hu]
      exact h.alloc L.txg le_rfl (by omega)
    · rw [done_unwritten (by omega)]
      exact h.alloc n (by omega) (by omega)
  · by_cases hn4 : n = L.txg + 4
    · subst hn4
      have hp := h.free L.txg le_rfl (by omega)
      rw [Ledger.freeAt, if_neg (by omega), hf] at hp
      rw [txgSlot_add_four, update_slot _ _ le_rfl (by omega) (by omega) le_rfl, if_neg (by omega)]
      rwa [Ledger.freeAt, show L.done.txg + 3 = L.txg + 4 from rfl, if_pos rfl]
    rw [update_slot _ _ (by omega) (by omega) (by omega) le_rfl, Ledger.freeAt,
      show L.done.txg + 3 = L.txg + 4 from rfl, if_neg hn4, show L.done.frees = L.frees from rfl]
    split
    · rwa [hok.frees_eq_empty (by omega)]
    · next hn3 =>
      have hp := h.free n (by omega) (by omega)
      rwa [Ledger.freeAt, if_neg hn3] at hp

theorem Ledger.done_deferred_self : L.done.deferred (L.txg % 2) = L.freed := by
  simp [Ledger.done]

theorem Ledger.done_deferred_of_ne {i : ℕ} (hi : i ≠ L.txg % 2) : L.done.deferred i = L.deferred i := by
  simp [Ledger.done, hi]

theorem Ledger.Ok.ncard_deferred (h : L.Ok g.whole) :
    (L.deferred 0).ncard + (L.deferred 1).ncard ≤ g.size := by
  have h0 : L.deferred 0 ⊆ g.whole := fun x hx => h.deferred_sub 0 x hx
  have h1 : L.deferred 1 ⊆ g.whole := fun x hx => h.deferred_sub 1 x hx
  have hd : Disjoint (L.deferred 0) (L.deferred 1) := disjoint_left.2 fun x => h.deferred_disjoint
  rw [← ncard_union_eq hd (g.whole_finite.subset h0) (g.whole_finite.subset h1), ← g.ncard_whole]
  exact ncard_le_ncard (union_subset h0 h1) g.whole_finite

theorem DeferMaps.done {defermap : ℕ → SpaceMap} {deferspace : ℕ}
    (h : DeferMaps g defermap deferspace L.deferred) (hok : L.Ok g.whole) (hok' : L.done.Ok g.whole)
    {dm fm : SpaceMap} (hdm : dm.Plain g L.freed) (hfm : fm.Carries g L.freed) :
    DeferMaps g (update defermap (L.txg % 2) dm)
      (uadd deferspace (usub fm.smSpace (defermap (L.txg % 2)).smSpace)) L.done.deferred := by
  refine ⟨fun i hi => ?_, ?_⟩
  · rw [update_apply]
    split
    · next hit => exact hit ▸ done_deferred_self ▸ hdm
    · next hit => exact done_deferred_of_ne hit ▸ h.map i hi
  have hle := hok.ncard_deferred
  have hle' := hok'.ncard_deferred
  have hlt := g.stop_lt'
  have hself := @Ledger.done_deferred_self L
  have hother := fun i => @Ledger.done_deferred_of_ne L i
  rw [hfm.space, (h.map (L.txg % 2) (mod_lt _ (by omega))).space, h.space, uadd, usub]
  rcases mod_two_eq_zero_or_one L.txg with hp | hp
  · rw [hp] at hself hother ⊢
    rw [hself, hother 1 (by omega)] at hle' ⊢
    omega
  · rw [hp] at hself hother ⊢
    rw [hself, hother 0 (by omega)] at hle' ⊢
    omega

theorem Listed.done {dirty : ℕ → Bool} (h : Listed dirty L) (hok : L.Ok g.whole) {deferspace : ℕ}
    (hspace : deferspace = (L.done.deferred 0).ncard + (L.done.deferred 1).ncard)
    (hok' : L.done.Ok g.whole) :
    Listed (if deferspace ≠ 0 then
        update (update dirty (txgSlot (L.txg + 3)) false) (txgSlot (L.txg + 1)) true
      else update dirty (txgSlot (L.txg + 3)) false) L.done := by
  refine ⟨fun n hn hne => ?_, fun i hi => .inl ?_, fun _ => ⟨rfl, rfl⟩⟩
  · have hn1 : L.txg + 1 ≤ n := hn.1
    have hn2 : n ≤ L.txg + 3 := hn.2
    rw [done_unwritten (by omega), show L.done.frees = L.frees from rfl] at hne
    have hn3 : n ≠ L.txg + 3 := by
      rintro rfl
      rw [unwritten_of_ne (by omega), hok.allocs_eq_empty (by omega),
        hok.frees_eq_empty (by omega), union_empty] at hne
      exact not_nonempty_empty hne
    have hold : update dirty (txgSlot (L.txg + 3)) false (txgSlot n) = true := by
      rw [update_slot _ _ (by omega) (by omega) (by omega) le_rfl, if_neg hn3]
      exact h.work n ⟨by omega, by omega⟩ hne
    split
    · rw [update_slot _ _ (by omega) (by omega) (by omega) (by omega), hold, ite_self]
    · exact hold
  · -- something is deferred, so the space is not zero
    have hfin : (L.done.deferred i).Finite := g.whole_finite.subset fun x hx => hok'.deferred_sub i x hx
    have hi2 : i = 0 ∨ i = 1 := by
      obtain ⟨x, hx⟩ := hi
      obtain ⟨f, -, hf, -⟩ := hok'.deferred_freedIn i x hx
      omega
    have hpos := (ncard_pos hfin).2 hi
    rw [if_pos (by rcases hi2 with rfl | rfl <;> omega)]
    exact update_self ..

theorem InCore.done {smo smoSyncing : SpaceMapObj} {obj : Object} {sm : SpaceMap}
    {load : Option LoadState} (h : InCore zfsRecover g smo smoSyncing obj L sm load)
    (hg : sm.smLoading = false) (hok : L.Ok g.whole) (hw : L.written = L.allocs L.txg)
    (hh : Holds g smoSyncing obj L.syncing) {dm : SpaceMap}
    (hdm : dm.Carries g (L.deferred (L.txg % 2))) {l : List ℕ} (hl : l.Perm dm.smRoot) :
    ∃ sm', spaceMapVacate l (if sm.smLoaded then some (spaceMapFree zfsRecover) else none) dm sm =
        some ({ dm with smRoot := [], smSpace := 0 }, sm') ∧ sm'.smLoaded = sm.smLoaded ∧
      InCore zfsRecover g smoSyncing smoSyncing obj L.done sm' load := by
  cases h with
  | loaded h1 h2 h3 =>
    obtain ⟨sm', hr, hb⟩ := hdm.vacate h3 .add zfsRecover hl
      (disjoint_left.2 fun x hx hx' => (hok.avail_notMem hx').2.2.1 _ hx)
    refine ⟨sm', by rw [if_pos h1]; exact hr, hb.frame.loaded,
      .loaded (hb.frame.loaded.trans h1) (hb.frame.loading.trans h2) ?_⟩
    rw [hok.done_avail hw]
    exact h3.of_becomes hb
  | unloaded h1 h2 h3 h4 =>
    refine ⟨sm, by rw [if_neg (by simp [h1])]; rfl, rfl, .unloaded h1 h2 h3 ⟨fun n => ?_, hh, le_rfl⟩⟩
    have := h4.unused n
    simp [Ledger.done, this]
  | loading _ h2 => simp [hg] at h2

section

variable (h : Refines zfsRecover g ms L syncedObj)
include h

theorem Refines.done (hdirty : ms.msDirty (txgSlot L.txg) = false) (hg : ms.msMap.smLoading = false)
    (ho : ∀ sm : SpaceMap, (order sm).Perm sm.smRoot) (metaslabDebug fragmented : Bool) :
    ∃ ms1, Refines zfsRecover g ms1 L.done ms.msObj ∧ ms.msObj = ms1.msObj ∧ ms1.msSmo = ms1.msSmoSyncing ∧
      vdevSyncDone zfsRecover metaslabDebug fragmented L.txg order ms =
        some (metaslabGroupSort ((evict metaslabDebug L.txg ms1).msActive &&
          (evict metaslabDebug L.txg ms1).msMap.smLoaded && !fragmented)
          (evict metaslabDebug L.txg ms1)) := by
  obtain ⟨hu, hf⟩ := h.listed.nothing hdirty
  have hw := h.ok.written_of_nothing hu
  have hok' := h.ok.done hw hf
  have hfd : (ms.msFreemap (txgSlot (L.txg + 3))).Plain g L.freed := by
    have hp := h.groups.free (L.txg + 3) (by omega) le_rfl
    rwa [Ledger.freeAt, if_pos rfl] at hp
  have hdm := h.defers.map (L.txg % 2) (mod_lt _ (by omega))
  obtain ⟨sm', hr1, hloaded, hin⟩ := h.inCore.done hg h.ok hw h.logs.syncing hdm.toCarries (ho _)
  obtain ⟨dm', hr2, hb2⟩ := hfd.toCarries.vacate hdm.vacated.toCarries .add zfsRecover (ho _)
    (disjoint_empty _)
  have hdm' : dm'.Plain g L.freed := by
    have hp := hdm.vacated.of_becomes hb2
    rwa [SegOp.apply, empty_union] at hp
  have hdefers := h.defers.done h.ok hok' hdm' hfd.toCarries
  have hlisted := h.listed.done h.ok hdefers.space hok'
  have hsize : (ms.msFreemap (txgSlot (L.txg + 3))).smSize ≠ 0 := by
    rw [hfd.on.size]
    exact g.size_pos.ne'
  have hclean : ms.vdevClean (txgClean L.txg) =
      { ms with msDirty := update ms.msDirty (txgSlot (L.txg + 3)) false } := by
    rw [Metaslab.vdevClean, txgSlot_clean h.pos]
  let fm : SpaceMap := { ms.msFreemap (txgSlot (L.txg + 3)) with smRoot := [], smSpace := 0 }
  let space := uadd ms.msDeferspace (usub (ms.msFreemap (txgSlot (L.txg + 3))).smSpace
    (ms.msDefermap (L.txg % 2)).smSpace)
  let base : Metaslab :=
    { ({ ms with msDirty := update ms.msDirty (txgSlot (L.txg + 3)) false }.setDefermap
        (L.txg % 2) dm').setFreemap (txgSlot (L.txg + 3)) fm with
      msMap := sm', msSmo := ms.msSmoSyncing, msDeferspace := space }
  have hbase : ∀ dirty, Listed dirty L.done → Refines zfsRecover g { base with msDirty := dirty }
      L.done ms.msObj := fun dirty hd =>
    ⟨hok', succ_pos _, h.groups.done h.ok hu hf hfd.vacated, hdefers,
      ⟨h.logs.syncing, by rw [done_syncing]; exact h.logs.syncing⟩, hin,
      fun ha => hloaded.trans (h.active ha), hd⟩
  refine ⟨if space ≠ 0 then base.vdevDirty (L.txg + 1) else base, ?_, ?_, ?_, ?_⟩
  · change Listed (if space ≠ 0 then _ else _) L.done at hlisted
    split
    · next hne =>
      rw [if_pos hne] at hlisted
      exact hbase _ hlisted
    · next hne =>
      rw [if_neg hne] at hlisted
      exact hbase _ hlisted
  · split <;> rfl
  · split <;> rfl
  · unfold vdevSyncDone metaslabSyncDone
    simp only [hclean, txgSlot_clean h.pos, hsize, if_false, txgDeferSize]
    simp only [SegOp.call] at hr2
    rw [hr1]
    simp only [bind_eq_bind, bind_some]
    rw [hr2]
    rfl

theorem Refines.evict (metaslabDebug : Bool) {txg : ℕ}
    (ht : L.txg = txg + 1) (hobj : syncedObj = ms.msObj) (hsmo : ms.msSmo = ms.msSmoSyncing)
    (hw : L.written = ∅) (ha : L.allocs (txg + 3) = ∅) :
    Refines zfsRecover g (evict metaslabDebug txg ms) L syncedObj := by
  unfold Zfs.evict
  split
  · next hc =>
    obtain ⟨hl, hact, hev, -⟩ := hc
    obtain ⟨hload, hloading, hcar⟩ := h.inCore.of_loaded hl
    have hunw : ∀ n, L.unwritten n = L.allocs n := fun n => by
      ext x
      simp [Ledger.unwritten, hw]
    simp only [evictable, Bool.and_eq_true, decide_eq_true_iff] at hev
    have h1 := (h.groups.alloc (txg + 1) (by omega) (by omega)).space_eq_zero.1 hev.1
    have h2 := (h.groups.alloc (txg + 2) (by omega) (by omega)).space_eq_zero.1 hev.2
    rw [hunw] at h1 h2
    have hunused : ∀ n, L.allocs n = ∅ := fun n => by
      refine eq_empty_of_forall_notMem fun x hx => ?_
      have hn := h.ok.allocs_live n x hx
      have : n = txg + 1 ∨ n = txg + 2 ∨ n = txg + 3 := by
        have := hn.1
        have := hn.2
        omega
      rcases this with rfl | rfl | rfl
      · rwa [h1] at hx
      · rwa [h2] at hx
      · rwa [ha] at hx
    have hunload : spaceMapUnload ms.msMap = { metaslabPpUnload ms.msMap with
        smLoaded := false, smRoot := [], smSpace := 0 } := by
      rw [spaceMapUnload, if_pos hl]
    rw [hunload]
    refine ⟨h.ok, h.pos, h.groups, h.defers, h.logs, ?_, fun ha' => ?_, h.listed⟩
    · change InCore _ _ _ _ _ _ _ ms.msLoad
      rw [hload]
      exact .unloaded rfl hloading ⟨⟨hcar.on.start, hcar.on.size, hcar.on.shift⟩, rfl, rfl, rfl⟩
        ⟨hunused, hobj ▸ h.logs.synced, le_of_eq (congrArg _ hsmo)⟩
    · rw [show ms.msActive = true from ha'] at hact
      cases hact
  · exact h

theorem Refines.sort {active : Bool} (ha : active = true → ms.msMap.smLoaded = true) :
    Refines zfsRecover g (metaslabGroupSort active ms) L syncedObj := h.setMap h.inCore ha

theorem Refines.vdevSyncDone
    (hdirty : ms.msDirty (txgSlot L.txg) = false) (hg : ms.msMap.smLoading = false)
    (ho : ∀ sm : SpaceMap, (order sm).Perm sm.smRoot) (metaslabDebug fragmented : Bool) :
    ∃ ms', vdevSyncDone zfsRecover metaslabDebug fragmented L.txg order ms = some ms' ∧
      Refines zfsRecover g ms' L.done ms.msObj := by
  obtain ⟨ms1, h₁, hobj, hsmo, hr⟩ := h.done hdirty hg ho metaslabDebug fragmented
  refine ⟨_, hr, Refines.sort ?_ ?_⟩
  · refine h₁.evict metaslabDebug rfl hobj hsmo rfl ?_
    ext x
    simp [Ledger.done, h.ok.allocs_eq_empty]
  · simp only [Bool.and_eq_true]
    exact fun ha => ha.1.2

theorem Refines.skip (hdirty : ms.msDirty (txgSlot L.txg) = false)
    (hclean : ms.msDirty (txgSlot (txgClean L.txg)) = false) :
    Refines zfsRecover g ms L.skip syncedObj := by
  obtain ⟨hu, hf⟩ := h.listed.nothing hdirty
  rw [txgSlot_clean h.pos] at hclean
  obtain ⟨hw, hfreed⟩ := h.listed.clean hclean
  have ha : L.allocs L.txg = ∅ := (h.ok.written_of_nothing hu).symm.trans hw
  have hd : ∀ i, L.deferred i = ∅ := fun i => by
    rw [← not_nonempty_iff_eq_empty]
    intro hi
    rcases h.listed.defer i hi with h' | h'
    · simp [hdirty] at h'
    · simp [hclean] at h'
  have hunw : ∀ n, L.skip.unwritten n = L.allocs n := fun n => by simp [Ledger.unwritten, Ledger.skip, hw]
  have hunw' : ∀ n, L.unwritten n = L.allocs n := fun n => by simp [Ledger.unwritten, hw]
  refine ⟨h.ok.skip ha hf hfreed hd, succ_pos _, ⟨fun n hn hn' => ?_, fun n hn hn' => ?_⟩,
    h.defers, h.logs, h.inCore.congr rfl rfl rfl, h.active, fun n hn hne => ?_, fun i hi => ?_,
    fun _ => ⟨hw, hfreed⟩⟩
  · rw [show L.skip.txg = L.txg + 1 from rfl] at hn hn'
    rw [hunw]
    by_cases hn4 : n = L.txg + 4
    · subst hn4
      rw [txgSlot_add_four, h.ok.allocs_eq_empty (by omega), ← hu]
      exact h.groups.alloc L.txg le_rfl (by omega)
    · rw [← hunw']
      exact h.groups.alloc n (by omega) (by omega)
  · rw [show L.skip.txg = L.txg + 1 from rfl] at hn hn'
    rw [Ledger.freeAt, show L.skip.txg + 3 = L.txg + 4 from rfl,
      show L.skip.freed = L.freed from rfl, show L.skip.frees = L.frees from rfl]
    split
    · next hn4 =>
      subst hn4
      have hp := h.groups.free L.txg le_rfl (by omega)
      rw [Ledger.freeAt, if_neg (by omega), hf] at hp
      rwa [txgSlot_add_four, hfreed]
    have hp := h.groups.free n (by omega) (by omega)
    rw [Ledger.freeAt] at hp
    split at hp
    · rw [hfreed] at hp
      rwa [h.ok.frees_eq_empty (by omega)]
    · exact hp
  · have hn1 : L.txg + 1 ≤ n := hn.1
    have hn2 : n ≤ L.txg + 3 := hn.2
    rw [hunw, show L.skip.frees = L.frees from rfl] at hne
    by_cases hn3 : n = L.txg + 3
    · rw [h.ok.allocs_eq_empty (by omega), h.ok.frees_eq_empty (by omega), union_empty] at hne
      exact absurd hne not_nonempty_empty
    · rw [← hunw'] at hne
      exact h.listed.work n ⟨by omega, by omega⟩ hne
  · rw [show L.skip.deferred = L.deferred from rfl, hd i] at hi
    exact absurd hi not_nonempty_empty

end

end Osol.Zfs
