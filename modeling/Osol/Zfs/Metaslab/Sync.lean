import Osol.Zfs.Metaslab.Alloc

/-!
# Writing a metaslab

A pass of `metaslab_sync` writes the allocations and frees of the syncing group, by
appending the two maps to the log or, when it condenses, by writing one map of all that
is allocated to an empty log. Either way the log leaves the same set allocated
(`metaslabWrite_spec`).
-/

namespace Osol.Zfs

open Osol.Lib Function Set Option Ledger

variable {zfsRecover : Bool} {g : Region} {ms : Metaslab} {L : Ledger ℕ} {syncedObj : Object}
  {order : SpaceMap → List ℕ}

/-! ## The two branches -/

theorem SpaceMap.Plain.removeAll (zfsRecover : Bool) {maps : List SpaceMap} {parts : List (Set ℕ)}
    {md : SpaceMap} {S : Set ℕ} (h : List.Forall₂ (fun sm P => sm.Carries g P) maps parts)
    (hmd : md.Plain g S) (hpw : parts.Pairwise Disjoint) (hsub : ∀ P ∈ parts, P ⊆ S) :
    ∃ md', maps.foldlM (fun md sm => spaceMapWalk (spaceMapRemove zfsRecover) sm md) md =
        some md' ∧ md'.Plain g {x | x ∈ S ∧ ∀ P ∈ parts, x ∉ P} := by
  induction h generalizing md S with
  | nil => exact ⟨md, rfl, by simpa using hmd⟩
  | @cons _ P _ _ hsm _ ih =>
    obtain ⟨hP, hpw⟩ := List.pairwise_cons.1 hpw
    obtain ⟨md1, hr1, hb1⟩ := hsm.walk hmd.toCarries .remove zfsRecover (hsub P (by simp))
    obtain ⟨md2, hr2, hp2⟩ := ih (hmd.of_becomes hb1) hpw
      fun Q hQ x hx => ⟨hsub Q (by simp [hQ]) hx, fun hx' => disjoint_left.1 (hP Q hQ) hx' hx⟩
    refine ⟨md2, ?_, ?_⟩
    · rw [List.foldlM_cons]
      simp only [SegOp.call] at hr1
      rwa [hr1]
    · convert hp2 using 2
      simp [SegOp.apply, and_assoc]

/-- The map of the condense branch is exactly what the log should leave allocated, and
every walk removes ranges that are there. -/
theorem condenseMap_spec (zfsRecover : Bool) (hok : L.Ok g.whole)
    (hg : GroupMaps g ms.msAllocmap ms.msFreemap L)
    (hd : DeferMaps g ms.msDefermap ms.msDeferspace L.deferred)
    (hm : ms.msMap.Carries g (L.avail g.whole)) {freedMap : SpaceMap}
    (hf : freedMap.Carries g L.write.freed) :
    ∃ am, condenseMap zfsRecover L.txg freedMap ms = some am ∧ am.Plain g L.write.syncing := by
  have ha : ∀ n, L.txg ≤ n → n ≤ L.txg + 3 → n ≠ L.txg →
      (ms.msAllocmap (txgSlot n)).Carries g (L.allocs n) := fun n h1 h2 hne =>
    unwritten_of_ne hne ▸ (hg.alloc n h1 h2).toCarries
  have hp0 := (hg.alloc L.txg le_rfl (by omega)).vacated
  have he : SpaceMap.Empty { ms.msAllocmap (txgSlot L.txg) with smRoot := [], smSpace := 0 } g :=
    ⟨hp0.on, rfl, rfl, hp0.pp⟩
  obtain ⟨am1, hr1, hb1⟩ := he.add_whole zfsRecover
  have hmaps : List.Forall₂ (fun (sm : SpaceMap) P => sm.Carries g P)
      [ms.msMap, freedMap, ms.msDefermap 0, ms.msDefermap 1, ms.msAllocmap (txgSlot (L.txg + 1)),
        ms.msAllocmap (txgSlot (L.txg + 2))] (L.parts g.whole) :=
    .cons hm (.cons hf (.cons (hd.map 0 (by omega)).toCarries
      (.cons (hd.map 1 (by omega)).toCarries (.cons (ha _ (by omega) (by omega) (by omega))
        (.cons (ha _ (by omega) (by omega) (by omega)) .nil)))))
  obtain ⟨am, hr, hp⟩ := SpaceMap.Plain.removeAll zfsRecover hmaps (hp0.of_becomes hb1)
    hok.parts_disjoint hok.parts_sub
  refine ⟨am, ?_, ?_⟩
  · simp only [condenseMap, spaceMapVacate, bind_eq_bind, bind_some, hr1]
    simpa using hr
  · convert hp using 1
    ext x
    exact hok.mem_rest

theorem SpaceMap.Plain.emptied {sm sm' : SpaceMap} {S : Set ℕ} (h : sm.Plain g S)
    (hroot : sm'.smRoot = []) (hspace : sm'.smSpace = 0) (hf : Frame sm sm') : sm'.Plain g ∅ := by
  have hpp : sm'.smPpRoot = none := by
    have := hf.pp
    rw [h.pp] at this
    exact isNone_iff_eq_none.1 (by simpa using this)
  have he : sm'.Empty g := ⟨h.on.of_frame hf, hroot, hspace, hpp⟩
  exact ⟨⟨he.inv, he.on, he.denote⟩, hpp⟩

section Write

variable (ho : ∀ sm : SpaceMap, (order sm).Perm sm.smRoot)
include ho

theorem writeMaps_spec (syncPass txg : ℕ) {i : SyncInput} {A F N : Set ℕ}
    (ha : i.allocmap.Plain g A) (hf : i.freemap.Plain g F) (hh : Holds g i.smo i.obj N)
    (hA : Disjoint A N) (hF : F ⊆ N ∪ A) :
    ∃ o, writeMaps syncPass txg order i = some o ∧ o.allocmap.Plain g ∅ ∧ o.freemap.Plain g ∅ ∧
      Holds g o.smo o.obj ((N ∪ A) \ F) ∧ Appended i.smo i.obj o.smo o.obj := by
  obtain ⟨am, smo1, obj1, hr1, hh1, hroot1, hspace1, hf1, happ1⟩ :=
    hh.sync syncPass txg ha.inv ha.on (ho _) (t := .alloc) (by rw [ha.denote]; exact hA)
  rw [ha.denote] at hh1
  obtain ⟨fm, smo2, obj2, hr2, hh2, hroot2, hspace2, hf2, happ2⟩ :=
    hh1.sync syncPass txg hf.inv hf.on (ho _) (t := .free) (by rw [hf.denote]; exact hF)
  rw [hf.denote] at hh2
  refine ⟨⟨am, fm, smo2, obj2⟩, ?_, ha.emptied hroot1 hspace1 hf1, hf.emptied hroot2 hspace2 hf2,
    hh2, happ1.trans happ2⟩
  simp only [writeMaps, hr1, hr2, bind_eq_bind, bind_some]

theorem metaslabWrite_spec (ms : Metaslab) (zfsRecover condense : Bool) (syncPass : ℕ)
    (hok : L.Ok g.whole) (hpos : 0 < L.txg) (hg : GroupMaps g ms.msAllocmap ms.msFreemap L)
    (hd : DeferMaps g ms.msDefermap ms.msDeferspace L.deferred)
    (hh : Holds g ms.msSmoSyncing ms.msObj L.syncing)
    (hm : condense = true → ms.msMap.Carries g (L.avail g.whole)) :
    ∃ (freedMap : SpaceMap) (o : SyncInput), metaslabWrite zfsRecover condense syncPass L.txg order ms =
        some { ((ms.setFreemap (txgSlot (L.txg + 3)) freedMap).setFreemap (txgSlot L.txg)
          o.freemap).setAllocmap (txgSlot L.txg) o.allocmap with
            msSmoSyncing := o.smo, msObj := o.obj } ∧
      freedMap.Plain g L.write.freed ∧ o.allocmap.Plain g ∅ ∧ o.freemap.Plain g ∅ ∧
      Holds g o.smo o.obj L.write.syncing ∧
      (condense = false → Appended ms.msSmoSyncing ms.msObj o.smo o.obj) := by
  have ham := hg.alloc L.txg le_rfl (by omega)
  have hfm : (ms.msFreemap (txgSlot L.txg)).Plain g (L.frees L.txg) := by
    have := hg.free L.txg le_rfl (by omega)
    rwa [Ledger.freeAt, if_neg (by omega)] at this
  have hfd : (ms.msFreemap (txgSlot (L.txg + 3))).Plain g L.freed := by
    have := hg.free (L.txg + 3) (by omega) le_rfl
    rwa [Ledger.freeAt, if_pos rfl] at this
  obtain ⟨freedMap, hr, hb⟩ := hfm.walk hfd.toCarries .add zfsRecover
    (disjoint_left.2 fun x hx => hok.frees_freed _ x hx)
  have hfreed : freedMap.Plain g L.write.freed := hfd.of_becomes hb
  simp only [SegOp.call] at hr
  cases condense with
  | false =>
    obtain ⟨o, hw, hoa, hof, hoh, happ⟩ := writeMaps_spec (i := appendInput L.txg ms) ho syncPass
      L.txg ham hfm hh hok.unwritten_disjoint fun x hx => hok.frees_txg hx
    refine ⟨freedMap, o, ?_, hfreed, hoa, hof, hok.append_syncing ▸ hoh, fun _ => happ⟩
    simp only [metaslabWrite, txgSlot_clean hpos, hr, hw, bind_eq_bind, bind_some,
      Bool.false_eq_true, if_false]
  | true =>
    obtain ⟨am, hc, hp⟩ := condenseMap_spec zfsRecover hok hg hd (hm rfl) hfreed.toCarries
    let i : SyncInput := ⟨am, { ms.msFreemap (txgSlot L.txg) with smRoot := [], smSpace := 0 },
      ⟨0, 0⟩, (spaceMapTruncate ms.msObj).2⟩
    obtain ⟨o, hw, hoa, hof, hoh, -⟩ := writeMaps_spec (i := i) ho syncPass L.txg hp hfm.vacated
      (holds_empty g _) (disjoint_empty _) (empty_subset _)
    rw [empty_union, sdiff_empty] at hoh
    refine ⟨freedMap, o, ?_, hfreed, hoa, hof, hoh, fun h => by cases h⟩
    have hi : condenseInput zfsRecover L.txg freedMap ms = some i := by
      simp only [condenseInput, hc, spaceMapVacate, bind_eq_bind, bind_some]
      rfl
    simp only [metaslabWrite, txgSlot_clean hpos, hr, hi, hw, bind_eq_bind, bind_some, if_true]

end Write

/-! ## `metaslab_sync` -/

theorem InCore.append {smo smoSyncing smoSyncing' : SpaceMapObj} {obj obj' : Object}
    {sm : SpaceMap} {load : Option LoadState}
    (h : InCore zfsRecover g smo smoSyncing obj L sm load)
    (happ : sm.smLoaded = false → Appended smoSyncing obj smoSyncing' obj') :
    InCore zfsRecover g smo smoSyncing' obj' L sm load := by
  have hcold : sm.smLoaded = false → Cold g smo smoSyncing obj L → Cold g smo smoSyncing' obj' L :=
    fun hl hc => by
    refine ⟨hc.unused, ⟨hc.log.dvd, ?_, hc.log.alloc⟩, hc.le.trans (happ hl).grows⟩
    rw [(happ hl).keeps _ hc.le]
    exact hc.log.log
  cases h with
  | loaded h1 h2 h3 => exact .loaded h1 h2 h3
  | unloaded h1 h2 h3 h4 => exact .unloaded h1 h2 h3 (hcold h1 h4)
  | loading h1 h2 h3 h4 =>
    refine .loading h1 h2 ⟨h3.stop, h3.space, h3.dvd, ?_⟩ (hcold h1 h4)
    obtain ⟨sm0, hp, hl, hg, hr⟩ := h3.replay
    refine ⟨sm0, hp, hl, hg, ?_⟩
    rwa [(happ h1).keeps _ ((Nat.min_le_right _ _).trans (h3.stop ▸ h4.le))]

theorem Ledger.write_unwritten : L.write.unwritten L.txg = ∅ := by
  simp [Ledger.unwritten, Ledger.write]

theorem Ledger.write_unwritten_of_ne {n : ℕ} (hn : n ≠ L.txg) : L.write.unwritten n = L.unwritten n := by
  simp [Ledger.unwritten, Ledger.write, hn]

theorem Ledger.write_frees : L.write.frees L.txg = ∅ := by
  simp [Ledger.write]

theorem Ledger.write_frees_of_ne {n : ℕ} (hn : n ≠ L.txg) : L.write.frees n = L.frees n := by
  simp [Ledger.write, hn]

theorem Listed.write {dirty : ℕ → Bool} (h : Listed dirty L) :
    Listed (update (update dirty (txgSlot L.txg) false) (txgSlot (L.txg + 3)) true) L.write := by
  refine ⟨fun n hn hne => ?_, fun _ _ => .inr (update_self ..), fun hc => ?_⟩
  · have hn1 : L.txg ≤ n := hn.1
    have hn2 : n ≤ L.txg + 2 := hn.2
    by_cases hnt : n = L.txg
    · subst hnt
      rw [write_unwritten, write_frees, union_empty] at hne
      exact absurd hne not_nonempty_empty
    · rw [write_unwritten_of_ne hnt, write_frees_of_ne hnt] at hne
      rw [update_slot _ _ hn1 (by omega) (by omega) le_rfl, if_neg (by omega),
        update_slot _ _ hn1 (by omega) le_rfl (by omega), if_neg hnt]
      exact h.work n ⟨hn1, hn2⟩ hne
  · rw [show L.write.txg = L.txg from rfl, update_self] at hc
    cases hc

theorem GroupMaps.write {allocmap freemap : ℕ → SpaceMap} (h : GroupMaps g allocmap freemap L)
    {am fm freedMap : SpaceMap} (ha : am.Plain g ∅) (hf : fm.Plain g ∅)
    (hfreed : freedMap.Plain g L.write.freed) :
    GroupMaps g (update allocmap (txgSlot L.txg) am)
      (update (update freemap (txgSlot (L.txg + 3)) freedMap) (txgSlot L.txg) fm)
      L.write := by
  refine ⟨fun n hn hn' => ?_, fun n hn hn' => ?_⟩ <;>
    rw [show L.write.txg = L.txg from rfl] at hn hn'
  · rw [update_slot _ _ hn hn' le_rfl (by omega)]
    split
    · next hnt => exact hnt ▸ write_unwritten ▸ ha
    · next hnt => exact write_unwritten_of_ne hnt ▸ h.alloc n hn hn'
  rw [update_slot _ _ hn hn' le_rfl (by omega), update_slot _ _ hn hn' (by omega) le_rfl]
  unfold Ledger.freeAt
  rw [show L.write.txg = L.txg from rfl]
  split
  · next hnt =>
    subst hnt
    rwa [if_neg (by omega), write_frees]
  next hnt =>
  split
  · exact hfreed
  · next hn3 =>
    have hp := h.free n hn hn'
    rwa [Ledger.freeAt, if_neg hn3, ← write_frees_of_ne hnt] at hp

theorem Refines.vdevSync (h : Refines zfsRecover g ms L syncedObj)
    (ho : ∀ sm : SpaceMap, (order sm).Perm sm.smRoot) (syncPass : ℕ) :
    ∃ ms', vdevSync zfsRecover syncPass L.txg order ms = some ms' ∧
    Refines zfsRecover g ms' L.write syncedObj := by
  have hlisted := h.listed.write
  have ham := h.groups.alloc L.txg le_rfl (by omega)
  have hfm := h.groups.free L.txg le_rfl (by omega)
  rw [Ledger.freeAt, if_neg (by omega)] at hfm
  simp only [Zfs.vdevSync, metaslabSync]
  by_cases hs : ((ms.vdevClean L.txg).msAllocmap (txgSlot L.txg)).smSpace = 0 ∧
      ((ms.vdevClean L.txg).msFreemap (txgSlot L.txg)).smSpace = 0
  · -- nothing new since the last pass
    have hself := h.ok.write_eq_self (ham.space_eq_zero.1 hs.1) (hfm.space_eq_zero.1 hs.2)
    rw [hself] at hlisted ⊢
    refine ⟨_, by rw [if_pos hs]; rfl, ?_⟩
    refine ⟨h.ok, h.pos, h.groups, h.defers, h.logs, h.inCore, h.active, ?_⟩
    rwa [← txgSlot_clean h.pos] at hlisted
  · have hc : wantsCondense syncPass (ms.vdevClean L.txg) = true → ms.msMap.smLoaded = true := fun hc => by
      simp only [wantsCondense, Bool.and_eq_true] at hc
      exact hc.1.1
    obtain ⟨freedMap, o, hw, hfreed, hoa, hof, hoh, happ⟩ :=
      metaslabWrite_spec ho (ms.vdevClean L.txg) zfsRecover
        (wantsCondense syncPass (ms.vdevClean L.txg)) syncPass h.ok h.pos h.groups h.defers
        h.logs.syncing fun hc' => (h.inCore.of_loaded (hc hc')).2.2
    refine ⟨_, by rw [if_neg hs, hw]; rfl, ?_⟩
    refine ⟨h.ok.write, h.pos, h.groups.write hoa hof hfreed, h.defers, ⟨h.logs.synced, hoh⟩, ?_,
      h.active, ?_⟩
    · refine (h.inCore.append fun hl => happ ?_).congr rfl rfl rfl
      rw [← Bool.not_eq_true]
      intro hc'
      simp [hc hc'] at hl
    · rwa [← txgSlot_clean h.pos] at hlisted

end Osol.Zfs
