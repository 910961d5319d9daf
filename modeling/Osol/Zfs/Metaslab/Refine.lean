import Osol.Zfs.Metaslab.Basic
import Osol.Zfs.Metaslab.Ledger
import Osol.Zfs.SpaceMap.Sync

/-!
# Metaslabs refine ledgers

`Refines` ties the maps, slots, headers and logs of a metaslab to a ledger: every map
carries the set that the ledger has for it, the two headers describe the synced and the
syncing state, and the dirty lists hold the metaslab whenever a group has work for it.
-/

namespace Osol.Zfs

open Osol.Lib Set List Option

/-! ## Maps that carry a set -/

/-- A range of whole units of the region, as the callers of a metaslab pass it. -/
structure Region.Range (g : Region) (offset size : ℕ) : Prop where
  size_ne : size ≠ 0
  offset_dvd : 2 ^ g.shift ∣ offset
  size_dvd : 2 ^ g.shift ∣ size
  start_le : g.start ≤ offset
  stop_le : offset + size ≤ g.start + g.size

structure SpaceMap.Carries (sm : SpaceMap) (g : Region) (S : Set ℕ) : Prop where
  inv : sm.Inv
  on : sm.On g
  denote : sm.denote = S

structure SpaceMap.Plain (sm : SpaceMap) (g : Region) (S : Set ℕ) : Prop extends
    sm.Carries g S where
  pp : sm.smPpRoot = none

namespace SpaceMap

variable {sm md : SpaceMap} {g : Region} {S A : Set ℕ} {offset size : ℕ}

theorem Carries.of_becomes {sm' : SpaceMap} (h : sm.Carries g S) (hb : sm.Becomes sm' A) :
    sm'.Carries g A :=
  ⟨hb.inv, h.on.of_frame hb.frame, hb.denote⟩

theorem Plain.of_becomes {sm' : SpaceMap} (h : sm.Plain g S) (hb : sm.Becomes sm' A) : sm'.Plain g A := by
  refine ⟨h.toCarries.of_becomes hb, ?_⟩
  have hpp := hb.frame.pp
  rw [h.pp] at hpp
  exact Option.isNone_iff_eq_none.1 (by simpa using hpp)

theorem Carries.stop_lt (h : sm.Carries g S) : sm.smStart + sm.smSize < 2 ^ 64 := by
  rw [h.on.start, h.on.size]
  exact g.stop_lt'

theorem Carries.fits (h : sm.Carries g S) (hr : g.Range offset size) : sm.Fits ⟨offset, offset + size⟩ := by
  have hlt := g.stop_lt'
  have hle := hr.stop_le
  refine ⟨?_, ?_, ?_, ?_, ?_⟩
  · rw [h.on.shift]
    exact hr.offset_dvd
  · rw [h.on.shift]
    exact Nat.dvd_add hr.offset_dvd hr.size_dvd
  · rw [h.on.start]
    exact hr.start_le
  · rwa [h.on.start, h.on.size]
  · exact lt_of_le_of_lt hle hlt

theorem Carries.call (h : sm.Carries g S) (o : SegOp) (zfsRecover : Bool) (hr : g.Range offset size)
    (hp : o.Pre S (Ico offset (offset + size))) :
    ∃ sm', o.call zfsRecover sm offset size = some sm' ∧
    sm.Becomes sm' (o.apply S (Ico offset (offset + size))) := by
  rw [← h.denote] at hp ⊢
  exact SegOp.returns zfsRecover h.inv h.stop_lt hr.size_ne (h.fits hr) hp

section

variable (h : sm.Carries g A) (hmd : md.Carries g S) (o : SegOp) (zfsRecover : Bool)
include h hmd o zfsRecover

theorem Carries.forSegs {order : List ℕ} (ho : order.Perm sm.smRoot) (hp : o.Pre S A) :
    ∃ md', forSegs sm.smSeg (o.call zfsRecover) order md = some md' ∧ md.Becomes md' (o.apply S A) := by
  rw [← h.denote, ← hmd.denote] at hp ⊢
  exact h.inv.forAll_returns ho zfsRecover hmd.inv hmd.stop_lt (h.on.start.trans hmd.on.start.symm)
    (h.on.size.trans hmd.on.size.symm) (h.on.shift.trans hmd.on.shift.symm) hp

theorem Carries.walk (hp : o.Pre S A) :
    ∃ md', spaceMapWalk (o.call zfsRecover) sm md = some md' ∧ md.Becomes md' (o.apply S A) :=
  h.forSegs hmd o zfsRecover (.refl _) hp

end

theorem Carries.space_eq_zero (h : sm.Carries g S) : sm.smSpace = 0 ↔ S = ∅ := by
  rw [h.inv.space_eq_ncard, ncard_eq_zero sm.denote_finite, h.denote]

theorem Carries.space (h : sm.Carries g S) : sm.smSpace = S.ncard := by
  rw [h.inv.space_eq_ncard, h.denote]

theorem Plain.vacated (h : sm.Plain g S) : SpaceMap.Plain { sm with smRoot := [], smSpace := 0 } g ∅ :=
  h.of_becomes (SpaceMap.vacated h.pp)

theorem Plain.create (g : Region) : (spaceMapCreate g.start g.size g.shift).Plain g ∅ :=
  ⟨⟨create_inv _ _ _, ⟨rfl, rfl, rfl⟩, create_denote _ _ _⟩, rfl⟩

end SpaceMap

/-! ## The refinement -/

/-- What the free map in the slot of `n` is: the frees of the three groups, and in the
fourth slot the frees of `txg` that are on their way to disk. -/
def Ledger.freeAt (L : Ledger ℕ) (n : ℕ) : Set ℕ := if n = L.txg + 3 then L.freed else L.frees n

structure GroupMaps (g : Region) (allocmap freemap : ℕ → SpaceMap) (L : Ledger ℕ) : Prop where
  alloc : ∀ n, L.txg ≤ n → n ≤ L.txg + 3 → (allocmap (txgSlot n)).Plain g (L.unwritten n)
  free : ∀ n, L.txg ≤ n → n ≤ L.txg + 3 → (freemap (txgSlot n)).Plain g (L.freeAt n)

structure DeferMaps (g : Region) (defermap : ℕ → SpaceMap) (deferspace : ℕ)
    (deferred : ℕ → Set ℕ) : Prop where
  map : ∀ i < 2, (defermap i).Plain g (deferred i)
  space : deferspace = (deferred 0).ncard + (deferred 1).ncard

/-- The log behind `ms_smo` leaves `A` allocated in the object as it was synced, that
behind `ms_smo_syncing` leaves `B` in the object as it is. -/
structure Logs (g : Region) (smo smoSyncing : SpaceMapObj) (syncedObj obj : Object)
    (A B : Set ℕ) : Prop where
  synced : Holds g smo syncedObj A
  syncing : Holds g smoSyncing obj B

/-- While the map is not in core, nothing is allocated, and the log behind `ms_smo` is
still the start of the object. -/
structure Cold (g : Region) (smo smoSyncing : SpaceMapObj) (obj : Object) (L : Ledger ℕ) :
    Prop where
  unused : ∀ n, L.allocs n = ∅
  log : Holds g smo obj L.synced
  le : smo.smoObjsize ≤ smoSyncing.smoObjsize

/-- A load that has replayed the log up to its offset. -/
structure Replaying (zfsRecover : Bool) (g : Region) (smo : SpaceMapObj) (obj : Object)
    (L : Ledger ℕ) (sm : SpaceMap) (l : LoadState) : Prop where
  stop : l.stop = smo.smoObjsize
  space : l.space = (g.whole \ L.synced).ncard
  dvd : 8 ∣ l.offset
  replay : ∃ sm0 : SpaceMap, sm0.Plain g g.whole ∧ sm0.smLoaded = false ∧ sm0.smLoading = true ∧
    (dmuRead obj 0 (min l.offset l.stop)).foldlM (loadEntry zfsRecover .free) sm0 = some sm

inductive InCore (zfsRecover : Bool) (g : Region) (smo smoSyncing : SpaceMapObj) (obj : Object)
    (L : Ledger ℕ) : SpaceMap → Option LoadState → Prop
  | loaded {sm} : sm.smLoaded = true → sm.smLoading = false → sm.Carries g (L.avail g.whole) →
      InCore zfsRecover g smo smoSyncing obj L sm none
  | unloaded {sm} : sm.smLoaded = false → sm.smLoading = false → sm.Empty g →
      Cold g smo smoSyncing obj L → InCore zfsRecover g smo smoSyncing obj L sm none
  | loading {sm l} : sm.smLoaded = false → sm.smLoading = true →
      Replaying zfsRecover g smo obj L sm l → Cold g smo smoSyncing obj L →
      InCore zfsRecover g smo smoSyncing obj L sm (some l)

/-- The dirty lists have the metaslab for every group with unwritten work, and for the
next group while frees are deferred. The slot before that of `txg` says whether the
metaslab was written in `txg`. -/
structure Listed (dirty : ℕ → Bool) (L : Ledger ℕ) : Prop where
  work : ∀ n, L.Live n → (L.unwritten n ∪ L.frees n).Nonempty → dirty (txgSlot n) = true
  defer : ∀ i, (L.deferred i).Nonempty →
    dirty (txgSlot L.txg) = true ∨ dirty (txgSlot (L.txg + 3)) = true
  clean : dirty (txgSlot (L.txg + 3)) = false → L.written = ∅ ∧ L.freed = ∅

structure Refines (zfsRecover : Bool) (g : Region) (ms : Metaslab) (L : Ledger ℕ)
    (syncedObj : Object) : Prop where
  ok : L.Ok g.whole
  pos : 0 < L.txg
  groups : GroupMaps g ms.msAllocmap ms.msFreemap L
  defers : DeferMaps g ms.msDefermap ms.msDeferspace L.deferred
  logs : Logs g ms.msSmo ms.msSmoSyncing syncedObj ms.msObj L.synced L.syncing
  inCore : InCore zfsRecover g ms.msSmo ms.msSmoSyncing ms.msObj L ms.msMap ms.msLoad
  active : ms.msActive = true → ms.msMap.smLoaded = true
  listed : Listed ms.msDirty L

section Steps

variable {zfsRecover : Bool} {g : Region} {ms : Metaslab} {L : Ledger ℕ} {syncedObj : Object}
  {smo smoSyncing : SpaceMapObj} {obj : Object} {sm : SpaceMap} {load : Option LoadState}

section

variable (h : InCore zfsRecover g smo smoSyncing obj L sm load)
include h

theorem InCore.of_loaded (hl : sm.smLoaded = true) :
    load = none ∧ sm.smLoading = false ∧ sm.Carries g (L.avail g.whole) := by
  cases h with
  | loaded _ hload hc => exact ⟨rfl, hload, hc⟩
  | unloaded h' => simp [hl] at h'
  | loading h' => simp [hl] at h'

theorem InCore.of_not_loaded (hl : sm.smLoaded = false) : Cold g smo smoSyncing obj L := by
  cases h with
  | loaded h' => simp [hl] at h'
  | unloaded _ _ _ hc => exact hc
  | loading _ _ _ hc => exact hc

theorem InCore.of_idle
    (hl : sm.smLoaded = false) (hg : sm.smLoading = false) : load = none ∧ sm.Empty g := by
  cases h with
  | loaded h' => simp [hl] at h'
  | unloaded _ _ he _ => exact ⟨rfl, he⟩
  | loading _ h' => simp [hg] at h'

end

variable {l : LoadState}

theorem InCore.of_loading (h : InCore zfsRecover g smo smoSyncing obj L sm (some l)) :
    sm.smLoaded = false ∧ Replaying zfsRecover g smo obj L sm l ∧ Cold g smo smoSyncing obj L := by
  cases h with
  | loading hl _ hr hc => exact ⟨hl, hr, hc⟩

theorem InCore.congr {L' : Ledger ℕ} (h : InCore zfsRecover g smo smoSyncing obj L sm load)
    (havail : L'.avail g.whole = L.avail g.whole) (hallocs : L'.allocs = L.allocs)
    (hsynced : L'.synced = L.synced) : InCore zfsRecover g smo smoSyncing obj L' sm load := by
  have hcold : Cold g smo smoSyncing obj L → Cold g smo smoSyncing obj L' := fun h =>
    ⟨hallocs ▸ h.unused, hsynced ▸ h.log, h.le⟩
  cases h with
  | loaded h1 h2 h3 => exact .loaded h1 h2 (havail ▸ h3)
  | unloaded h1 h2 h3 h4 => exact .unloaded h1 h2 h3 (hcold h4)
  | loading h1 h2 h3 h4 => exact .loading h1 h2 ⟨h3.stop, hsynced ▸ h3.space, h3.dvd, h3.replay⟩ (hcold h4)

theorem Refines.setMap (h : Refines zfsRecover g ms L syncedObj) {active : Bool}
    (hin : InCore zfsRecover g ms.msSmo ms.msSmoSyncing ms.msObj L sm load)
    (ha : active = true → sm.smLoaded = true) :
    Refines zfsRecover g { ms with msMap := sm, msLoad := load, msActive := active } L syncedObj :=
  ⟨h.ok, h.pos, h.groups, h.defers, h.logs, hin, ha, h.listed⟩

/-! ## Loading -/

theorem Refines.activateBegin (h : Refines zfsRecover g ms L syncedObj)
    (hl : ms.msMap.smLoaded = false) (hg : ms.msMap.smLoading = false) :
    ∃ ms', activateBegin zfsRecover ms = some ms' ∧ Refines zfsRecover g ms' L syncedObj := by
  have hcold := h.inCore.of_not_loaded hl
  have he := (h.inCore.of_idle hl hg).2
  obtain ⟨sm, hr, hb⟩ := loadBegin_spec zfsRecover .free he hcold.log
  have hplain : sm.Plain g g.whole := by
    have he' : (ms.msMap.withFlags ms.msMap.smLoaded true).Empty g := he.withFlags
    rw [MapType.view, sdiff_empty] at hb
    exact SpaceMap.Plain.of_becomes ⟨⟨he'.inv, he'.on, he'.denote⟩, he'.pp⟩ hb
  have hloaded : sm.smLoaded = false := hb.frame.loaded.trans hl
  have hloading : sm.smLoading = true := hb.frame.loading
  refine ⟨_, by rw [Zfs.activateBegin, hr]; rfl, h.setMap ?_ ?_⟩
  · refine .loading hloaded hloading ⟨rfl, rfl, Nat.dvd_zero 8, sm, hplain, hloaded, hloading, ?_⟩
      hcold
    simp [dmuRead]
  · intro ha
    simp [h.active ha] at hl

theorem Holds.log_start {A : Set ℕ} (h : Holds g smo obj A) {k : ℕ} (hk : k ≤ smo.smoObjsize) :
    ∃ N, Replays g (dmuRead obj 0 k) N := by
  have htake : (dmuRead obj 0 smo.smoObjsize).take (k / 8) = dmuRead obj 0 k := by
    unfold dmuRead
    rw [← map_take, take_range, Nat.min_eq_left (Nat.div_le_div_right hk)]
  rw [← htake]
  exact h.log.take (k / 8)

theorem Holds.replay_start {A : Set ℕ} (h : Holds g smo obj A) (zfsRecover : Bool) {k : ℕ}
    (hk : k ≤ smo.smoObjsize) {sm0 : SpaceMap} (hp : sm0.Plain g g.whole) :
    ∃ sm N, (dmuRead obj 0 k).foldlM (loadEntry zfsRecover .free) sm0 = some sm ∧
      sm0.Becomes sm N ∧ (k = smo.smoObjsize → N = g.whole \ A) := by
  have hd : sm0.denote = MapType.free.view g ∅ := by rw [hp.denote, MapType.view, sdiff_empty]
  by_cases hend : k = smo.smoObjsize
  · subst hend
    obtain ⟨sm, hr, hb⟩ := h.log.load zfsRecover .free hp.inv hp.on hd
    exact ⟨sm, _, hr, hb, fun _ => rfl⟩
  · obtain ⟨N, hlog⟩ := h.log_start hk
    obtain ⟨sm, hr, hb⟩ := hlog.load zfsRecover .free hp.inv hp.on hd
    exact ⟨sm, _, hr, hb, fun h' => absurd h' hend⟩

theorem Replaying.becomes (h : Replaying zfsRecover g smo obj L sm l)
    (hh : Holds g smo obj L.synced) :
    ∃ (sm0 : SpaceMap) (N : Set ℕ), sm0.Plain g g.whole ∧ sm0.smLoaded = false ∧
      sm0.smLoading = true ∧ sm0.Becomes sm N ∧ (l.stop ≤ l.offset → N = g.whole \ L.synced) := by
  obtain ⟨sm0, hp, hl, hg, hr⟩ := h.replay
  rw [h.stop] at hr ⊢
  obtain ⟨sm', N, hr', hb, hN⟩ := hh.replay_start zfsRecover (Nat.min_le_right l.offset _) hp
  obtain rfl : sm' = sm := some.inj (hr'.symm.trans hr)
  exact ⟨sm0, N, hp, hl, hg, hb, fun hle => hN (Nat.min_eq_right hle)⟩

section

variable (h : Refines zfsRecover g ms L syncedObj) (hload : ms.msLoad = some l)
include h hload

theorem Refines.activateRead (hlt : l.offset < l.stop) (error : ℕ) :
    ∃ ms', activateRead zfsRecover error l ms = some ms' ∧ Refines zfsRecover g ms' L syncedObj := by
  have hin := h.inCore
  rw [hload] at hin
  obtain ⟨hl, hrep, hcold⟩ := hin.of_loading
  have hidle : ms.msActive = true → False := fun ha => by simp [h.active ha] at hl
  unfold Zfs.activateRead
  by_cases he : error = 0
  · -- the log up to the end of this block returns, so this block does
    obtain ⟨sm0, hp, hl0, hg0, hr⟩ := hrep.replay
    have hbs : blockSize = 4096 := rfl
    have hdvd := hrep.dvd
    have hstop := hrep.stop
    have h8 := hcold.log.dvd
    have hmin : min (l.offset + blockSize) l.stop = l.offset + min (l.stop - l.offset) blockSize := by omega
    have hread := @dmuRead_add ms.msObj 0 l.offset (min (l.stop - l.offset) blockSize)
      (Nat.dvd_zero 8) hdvd
    rw [Nat.zero_add, ← hmin] at hread
    have hend : min (l.offset + blockSize) l.stop ≤ ms.msSmo.smoObjsize := by omega
    obtain ⟨sm, N, hr', hb, -⟩ := hcold.log.replay_start zfsRecover hend hp
    rw [Nat.min_eq_left hlt.le] at hr
    have hblock : loadBlock zfsRecover .free ms.msObj l.stop l.offset ms.msMap = some sm := by
      have hr2 := hr'
      rw [hread, foldlM_append, hr] at hr2
      have hphase : p2phase (min (l.stop - l.offset) blockSize) 8 = 0 :=
        p2phase_eq_zero (n := 3).2 (by omega)
      rwa [loadBlock, verify_bind_of hphase, verify_bind_of (by omega)]
    refine ⟨_, by rw [if_pos he, hblock]; rfl, h.setMap ?_ fun ha => (hidle ha).elim⟩
    exact .loading (hb.frame.loaded.trans hl0) (hb.frame.loading.trans hg0)
      ⟨hstop, hrep.space, (Nat.dvd_add_right hdvd).2 (by rw [hbs]; decide), sm0, hp, hl0, hg0, hr'⟩
      hcold
  · obtain ⟨sm0, N, hp, -, -, hb, -⟩ := hrep.becomes hcold.log
    have hplain := hp.of_becomes hb
    refine ⟨_, if_neg he, h.setMap ?_ fun ha => by simp at ha⟩
    exact .unloaded hl rfl ⟨⟨hplain.on.start, hplain.on.size, hplain.on.shift⟩, rfl, rfl, hplain.pp⟩
      hcold

theorem Refines.activateEnd (hle : l.stop ≤ l.offset) :
    ∃ ms', activateEnd zfsRecover l ms = some ms' ∧ Refines zfsRecover g ms' L syncedObj ∧
      ms'.msMap.smLoaded = true := by
  have hin := h.inCore
  rw [hload] at hin
  obtain ⟨hl, hrep, hcold⟩ := hin.of_loading
  obtain ⟨sm0, N, hp, -, -, hb, hN⟩ := hrep.becomes hcold.log
  have hcar := hp.toCarries.of_becomes hb
  obtain ⟨sm1, hr1, hinv1, hd1, hl1, hg1, -, hstart, hsize, hshift⟩ := loadEnd_spec true hcar.inv
  have hcar1 : sm1.Carries g (g.whole \ L.synced) :=
    ⟨hinv1, ⟨hstart.trans hcar.on.start, hsize.trans hcar.on.size, hshift.trans hcar.on.shift⟩,
      by rw [hd1, hcar.denote, hN hle]⟩
  rw [hcar.denote, hN hle, ← hrep.space] at hr1
  obtain ⟨sm2, hr2, hb2⟩ := (h.defers.map 0 (by omega)).walk hcar1 .remove zfsRecover
    fun x hx => ⟨h.ok.deferred_sub 0 x hx, h.ok.deferred_synced 0 x hx⟩
  have hcar2 := hcar1.of_becomes hb2
  obtain ⟨sm3, hr3, hb3⟩ := (h.defers.map 1 (by omega)).walk hcar2 .remove zfsRecover
    fun x hx => ⟨⟨h.ok.deferred_sub 1 x hx, h.ok.deferred_synced 1 x hx⟩, fun hx' => by
      obtain ⟨f, hf, hf0, -⟩ := h.ok.deferred_freedIn 0 x hx'
      obtain ⟨f', hf', hf1, -⟩ := h.ok.deferred_freedIn 1 x hx
      rw [hf] at hf'
      cases hf'
      omega⟩
  have hcar3 := hcar2.of_becomes hb3
  have hf := hb2.frame.trans hb3.frame
  have hr : Zfs.activateEnd zfsRecover l ms = some { ms with msMap := sm3, msLoad := none } := by
    simp only [SegOp.call] at hr2 hr3
    simp only [Zfs.activateEnd, spaceMapClaim, hr1, hr2, hr3, bind_eq_bind, bind_some]
  refine ⟨_, hr, h.setMap (.loaded (hf.loaded.trans hl1) (hf.loading.trans hg1) ?_)
    (fun ha => by simp [h.active ha] at hl), hf.loaded.trans hl1⟩
  refine ⟨hcar3.inv, hcar3.on, ?_⟩
  have hpend : L.pending = ∅ := by
    ext x
    simp [Ledger.pending, hcold.unused]
  rw [hcar3.denote, Ledger.avail, hpend, sdiff_empty]
  rfl

end

end Steps

end Osol.Zfs
