import Osol.Zfs.Metaslab.Done

/-!
# Runs of a metaslab

The calls on a metaslab under `ms_lock`, in any order the callers may make them, with the
ledger kept alongside. `Reachable` is closed under them, and every reachable metaslab
refines its ledger (`Reachable.refines`).
-/

namespace Osol.Zfs

open Osol.Lib Option Set

/-- A metaslab, the ledger of what was done with it, and its space map object as it was
when `ms_smo` was last set. -/
structure State where
  ms : Metaslab
  ledger : Ledger ℕ
  syncedObj : Object

/-- The steps of a metaslab. A load is `loadBegin`, then `loadRead`s, then `loadEnd`, since
it drops the lock in between. -/
inductive Event where
  | loadBegin
  | loadRead (error : ℕ)
  | loadEnd
  | sort (active : Bool)
  | alloc (offset size txg : ℕ)
  | claim (offset size txg : ℕ)
  | free (spaFreezeTxg offset size txg : ℕ) (now : Bool)
  | sync (txg syncPass : ℕ) (order : SpaceMap → List ℕ)
  | syncDone (txg : ℕ) (metaslabDebug fragmented : Bool) (order : SpaceMap → List ℕ)
  | skip

namespace Event

/-- What the callers promise. Loads and activations are `metaslab_activate`'s own tests.
A picker returns a range of the map it is given, a freed range is in use, and a range
freed at once is still in the allocation map of its group. A group syncs in passes
until the metaslab is off its list, then it is done; it is skipped if the metaslab
was not on it. -/
def Legal (g : Region) (st : State) : Event → Prop
  | loadBegin => st.ms.msMap.smLoaded = false ∧ st.ms.msMap.smLoading = false
  | loadRead _ => ∃ l, st.ms.msLoad = some l ∧ l.offset < l.stop
  | loadEnd => ∃ l, st.ms.msLoad = some l ∧ l.stop ≤ l.offset
  | sort active => active = true → st.ms.msMap.smLoaded = true
  | alloc offset size txg => st.ms.msMap.smLoaded = true ∧ st.ms.msActive = true ∧
      st.ledger.Live txg ∧ g.Range offset size ∧
      Ico offset (offset + size) ⊆ st.ms.msMap.denote
  | claim offset size txg => st.ms.msMap.smLoaded = true ∧
      (txg = 0 ∨ st.ms.msActive = true ∧ st.ledger.Live txg) ∧ g.Range offset size
  | free _ offset size txg false => st.ledger.Live txg ∧ g.Range offset size ∧
      ∀ x ∈ Ico offset (offset + size), ∃ m ≤ txg, st.ledger.owner x = some m
  | free _ offset size txg true => st.ledger.Live txg ∧ g.Range offset size ∧
      (∀ x ∈ Ico offset (offset + size), st.ledger.owner x = some txg) ∧
      Ico offset (offset + size) ⊆ (st.ms.msAllocmap (txgSlot txg)).denote
  | sync txg _ order => txg = st.ledger.txg ∧ st.ms.msDirty (txgSlot txg) = true ∧
      ∀ sm, (order sm).Perm sm.smRoot
  | syncDone txg _ _ order => txg = st.ledger.txg ∧ st.ms.msMap.smLoading = false ∧
      st.ms.msDirty (txgSlot txg) = false ∧ st.ms.msDirty (txgSlot (txgClean txg)) = true ∧
      ∀ sm, (order sm).Perm sm.smRoot
  | skip => st.ms.msDirty (txgSlot st.ledger.txg) = false ∧
      st.ms.msDirty (txgSlot (txgClean st.ledger.txg)) = false

/-- The call. -/
def run (zfsRecover : Bool) (ms : Metaslab) : Event → Option Metaslab
  | loadBegin => activateBegin zfsRecover ms
  | loadRead error => ms.msLoad.bind fun l => activateRead zfsRecover error l ms
  | loadEnd => ms.msLoad.bind fun l => activateEnd zfsRecover l ms
  | sort active => some (metaslabGroupSort active ms)
  | alloc offset size txg => metaslabGroupAlloc zfsRecover offset size txg ms
  | claim offset size txg => (metaslabClaimDva zfsRecover true offset size txg ms).map Prod.fst
  | free spaFreezeTxg offset size txg now =>
      metaslabFreeDva zfsRecover spaFreezeTxg offset size txg now ms
  | sync txg syncPass order => vdevSync zfsRecover syncPass txg order ms
  | syncDone txg metaslabDebug fragmented order =>
      vdevSyncDone zfsRecover metaslabDebug fragmented txg order ms
  | skip => some ms

open Classical in
/-- What the call does to the ledger. A claim of space that is not free and a free after
the pool was frozen do nothing. -/
noncomputable def ledger (st : State) : Event → Ledger ℕ
  | alloc offset size txg => st.ledger.alloc (Ico offset (offset + size)) txg
  | claim offset size txg =>
      if txg ≠ 0 ∧ Ico offset (offset + size) ⊆ st.ms.msMap.denote then
        st.ledger.alloc (Ico offset (offset + size)) txg
      else st.ledger
  | free spaFreezeTxg offset size txg now =>
      if spaFreezeTxg < txg then st.ledger
      else if now then st.ledger.freeNow (Ico offset (offset + size)) txg
      else st.ledger.free (Ico offset (offset + size)) txg
  | sync _ _ _ => st.ledger.write
  | syncDone _ _ _ _ => st.ledger.done
  | skip => st.ledger.skip
  | _ => st.ledger

/-- `ms_smo` is set when a group is done. -/
def syncedObj (st : State) : Event → Object
  | syncDone _ _ _ _ => st.ms.msObj
  | _ => st.syncedObj

noncomputable def next (st : State) (e : Event) (ms : Metaslab) : State :=
  ⟨ms, e.ledger st, e.syncedObj st⟩

end Event

/-- A legal call takes `st` to `st'`. -/
def Step (zfsRecover : Bool) (g : Region) (st : State) (e : Event) (st' : State) : Prop :=
  e.Legal g st ∧ ∃ ms', e.run zfsRecover st.ms = some ms' ∧ st' = e.next st ms'

/-- The states of a metaslab. It starts on a log that leaves `N` allocated: when the pool
is opened or created its maps are made at once, when space is added they are made when
the group that adds it has synced. -/
inductive Reachable (zfsRecover : Bool) (g : Region) : State → Prop
  | opened {metaslabDebug fragmented order smoObject smo obj N txg first ms} :
      (∀ sm : SpaceMap, (order sm).Perm sm.smRoot) → Holds g smo obj N → txg ≤ txgInitial →
      0 < first → (txg ≠ 0 → first = txg) →
      metaslabInit zfsRecover metaslabDebug fragmented order smoObject smo obj g.start g.size
        g.shift txg = some ms →
      Reachable zfsRecover g ⟨ms, .initial N first, obj⟩
  | added {metaslabDebug fragmented order smoObject smo obj N txg syncPass ms ms1 ms2} :
      (∀ sm : SpaceMap, (order sm).Perm sm.smRoot) → Holds g smo obj N → txgInitial < txg →
      metaslabInit zfsRecover metaslabDebug fragmented order smoObject smo obj g.start g.size
        g.shift txg = some ms →
      vdevSync zfsRecover syncPass txg order ms = some ms1 →
      vdevSyncDone zfsRecover metaslabDebug fragmented txg order ms1 = some ms2 →
      Reachable zfsRecover g ⟨ms2, .initial N (txg + 1), obj⟩
  | step {st e st'} : Reachable zfsRecover g st → Step zfsRecover g st e st' →
      Reachable zfsRecover g st'

/-- The metaslab of a state is in the state of its ledger. -/
abbrev State.Ok (zfsRecover : Bool) (g : Region) (st : State) : Prop :=
  Refines zfsRecover g st.ms st.ledger st.syncedObj

section Steps

variable {zfsRecover : Bool} {g : Region} {st : State} {n : ℕ}

theorem State.Ok.step (h : st.Ok zfsRecover g) {e : Event} (he : e.Legal g st) :
    ∃ ms', e.run zfsRecover st.ms = some ms' ∧ (e.next st ms').Ok zfsRecover g := by
  cases e with
  | loadBegin => exact h.activateBegin he.1 he.2
  | loadRead error =>
    obtain ⟨l, hl, hlt⟩ := he
    simp only [Event.run, hl]
    exact h.activateRead hl hlt error
  | loadEnd =>
    obtain ⟨l, hl, hle⟩ := he
    simp only [Event.run, hl]
    obtain ⟨ms', hr, h', -⟩ := h.activateEnd hl hle
    exact ⟨ms', hr, h'⟩
  | sort active => exact ⟨_, rfl, h.sort he⟩
  | alloc offset size txg =>
    obtain ⟨hl, -, hn, hr, hsub⟩ := he
    exact h.metaslabGroupAlloc hr hl hn hsub
  | claim offset size txg =>
    obtain ⟨hl, hn, hr⟩ := he
    simp only [Event.run, Event.next, Event.ledger]
    split
    · next hc =>
      obtain ⟨ms', hrun, h'⟩ := h.claim_of_subset hr hl (hn.resolve_left hc.1).2 hc.2
      exact ⟨ms', by rw [hrun]; rfl, h'⟩
    · obtain ⟨error, hrun⟩ := h.claim_of_not hr hl (by tauto)
      exact ⟨st.ms, by rw [hrun]; rfl, h⟩
  | free spaFreezeTxg offset size txg now =>
    simp only [Event.run, Event.next, Event.ledger]
    split
    · next hz => exact ⟨st.ms, by rw [metaslabFreeDva, if_pos hz], h⟩
    next hz =>
    cases now with
    | false =>
      obtain ⟨hn, hr, hown⟩ := he
      exact h.free hr (not_lt.1 hz) hn hown
    | true =>
      obtain ⟨hn, hr, hown, hsub⟩ := he
      exact h.freeNow hr (not_lt.1 hz) hn hown hsub
  | sync txg syncPass order =>
    obtain ⟨rfl, -, ho⟩ := he
    exact h.vdevSync ho syncPass
  | syncDone txg metaslabDebug fragmented order =>
    obtain ⟨rfl, hg, hd, -, ho⟩ := he
    exact h.vdevSyncDone hd hg ho metaslabDebug fragmented
  | skip => exact ⟨st.ms, rfl, h.skip he.1 he.2⟩

/-! ## The start -/

/-- The metaslab once its maps are made. -/
def fresh (smo : SpaceMapObj) (obj : Object) (sm : SpaceMap) (dirty : ℕ → Bool) : Metaslab :=
  let m := spaceMapCreate sm.smStart sm.smSize sm.smShift
  { metaslabZero smo obj sm with
    msSmo := smo, msAllocmap := fun _ => m, msFreemap := fun _ => m, msDefermap := fun _ => m,
    msDirty := dirty }

theorem evict_eq_self {metaslabDebug : Bool} {txg : ℕ} {ms : Metaslab}
    (h : ms.msMap.smLoaded = true → metaslabDebug = true) : evict metaslabDebug txg ms = ms := by
  refine if_neg fun hc => ?_
  have := h hc.1
  simp [hc.2.2.2] at this

theorem metaslabSyncDone_fresh {metaslabDebug fragmented : Bool} {order : SpaceMap → List ℕ}
    (ho : ∀ sm : SpaceMap, (order sm).Perm sm.smRoot) (smo : SpaceMapObj) (obj : Object)
    {sm : SpaceMap} (hsm : sm.smLoaded = true → metaslabDebug = true) (dirty : ℕ → Bool) (txg : ℕ) :
    metaslabSyncDone zfsRecover metaslabDebug fragmented txg order
      { metaslabZero smo obj sm with msDirty := dirty } = some (fresh smo obj sm dirty) := by
  have hnil : ∀ start size shift, order (spaceMapCreate start size shift) = [] :=
    fun _ _ _ => List.perm_nil.1 (ho _)
  have hv : ∀ (func : Option (SpaceMap → ℕ → ℕ → Option SpaceMap)) (start size shift : ℕ)
      (md : SpaceMap), spaceMapVacate (order (spaceMapCreate start size shift)) func
        (spaceMapCreate start size shift) md = some (spaceMapCreate start size shift, md) := by
    intro func start size shift md
    rw [hnil]
    cases func <;> rfl
  have hz : (spaceMapCreate 0 0 0).smSize = 0 := rfl
  have hs : ∀ start size shift, (spaceMapCreate start size shift).smSpace = 0 := fun _ _ _ => rfl
  simp only [metaslabSyncDone, metaslabZero, hz, if_true, createMaps, hv, hs, bind_eq_bind, bind_some]
  have hd : uadd 0 (usub 0 0) = 0 := by decide
  have hne : ¬ (0 ≠ 0) := fun h => h rfl
  simp only [hd, hne, if_false, Metaslab.setDefermap, Metaslab.setFreemap, Function.update_eq_self_iff.2]
  rw [evict_eq_self hsm]
  rfl

theorem fresh_refines {smo : SpaceMapObj} {obj : Object} {N : Set ℕ} (hh : Holds g smo obj N)
    {sm : SpaceMap} (hon : sm.On g) (hin : InCore zfsRecover g smo smo obj (.initial N n) sm none)
    (hn : 0 < n) (dirty : ℕ → Bool) :
    Refines zfsRecover g (fresh smo obj sm dirty) (.initial N n) obj := by
  have hp : (spaceMapCreate sm.smStart sm.smSize sm.smShift).Plain g ∅ := by
    rw [hon.start, hon.size, hon.shift]
    exact SpaceMap.Plain.create g
  have hsync : (Ledger.initial N n).syncing = N := by simp [Ledger.syncing, Ledger.initial]
  refine ⟨Ledger.initial_ok hh.log.subset hn, hn, ⟨fun m _ _ => ?_, fun m _ _ => ?_⟩,
    ⟨fun _ _ => hp, by simp [Ledger.initial, fresh, metaslabZero]⟩, ⟨hh, by rw [hsync]; exact hh⟩, hin,
    fun ha => ?_, fun m _ hne => ?_, fun i hi => ?_, fun _ => ⟨rfl, rfl⟩⟩
  · rw [show (Ledger.initial N n).unwritten m = ∅ by simp [Ledger.unwritten, Ledger.initial]]
    exact hp
  · rwa [show (Ledger.initial N n).freeAt m = ∅ by unfold Ledger.freeAt; split <;> rfl]
  · cases ha
  · obtain ⟨x, hx⟩ := hne
    simp [Ledger.unwritten, Ledger.initial] at hx
  · exact absurd hi Set.not_nonempty_empty

theorem initMap_spec (zfsRecover metaslabDebug : Bool) {smo : SpaceMapObj} {obj : Object}
    {N : Set ℕ} (hh : Holds g smo obj N) (n smoObject : ℕ) :
    ∃ sm, initMap zfsRecover metaslabDebug smoObject smo obj
        (spaceMapCreate g.start g.size g.shift) = some sm ∧ sm.On g ∧
      (sm.smLoaded = true → metaslabDebug = true) ∧
      InCore zfsRecover g smo smo obj (.initial N n) sm none := by
  have he : (spaceMapCreate g.start g.size g.shift).Empty g := ⟨⟨rfl, rfl, rfl⟩, rfl, rfl, rfl⟩
  unfold initMap
  split
  · next hc =>
    obtain ⟨sm, hr, hinv, hd, hon, hl, hg, -⟩ := spaceMapLoad_spec zfsRecover true .free he hh
    refine ⟨sm, by rw [hr]; rfl, hon, fun _ => hc.1, .loaded hl hg ⟨hinv, hon, ?_⟩⟩
    rw [hd]
    simp [MapType.view, Ledger.avail, Ledger.pending, Ledger.initial]
  · exact ⟨_, rfl, he.on, fun h => by simp [spaceMapCreate] at h,
      .unloaded rfl rfl he ⟨fun _ => rfl, hh, le_rfl⟩⟩

theorem Reachable.ok (h : Reachable zfsRecover g st) : st.Ok zfsRecover g := by
  induction h with
  | @opened metaslabDebug fragmented order smoObject smo obj N txg first ms ho hh ht hpos _ hr =>
    obtain ⟨sm, hsm, hon, hdebug, hin⟩ := initMap_spec zfsRecover metaslabDebug hh first smoObject
    have hdone := @metaslabSyncDone_fresh zfsRecover metaslabDebug fragmented order ho smo obj sm
      hdebug (fun _ => false) 0
    simp only [metaslabInit, hsm, bind_eq_bind, bind_some, if_pos ht] at hr
    rw [show metaslabZero smo obj sm = { metaslabZero smo obj sm with msDirty := fun _ => false }
      from rfl, hdone, bind_some, some.injEq] at hr
    subst hr
    split <;> exact fresh_refines hh hon hin hpos _
  | @added metaslabDebug fragmented order smoObject smo obj N txg syncPass ms ms1 ms2 ho hh ht hr
      hr1 hr2 =>
    obtain ⟨sm, hsm, hon, hdebug, hin⟩ := initMap_spec zfsRecover metaslabDebug hh (txg + 1)
      smoObject
    have ht0 : txg ≠ 0 := by omega
    simp only [metaslabInit, hsm, bind_eq_bind, bind_some, if_neg (not_le.2 ht), some.injEq,
      if_pos ht0] at hr
    subst hr
    -- the passes before the maps are made find nothing to do
    have hsync : vdevSync zfsRecover syncPass txg order ((metaslabZero smo obj sm).vdevDirty txg) =
        some ((((metaslabZero smo obj sm).vdevDirty txg).vdevClean txg).vdevDirty
          (txgClean txg)) := rfl
    rw [hsync, some.injEq] at hr1
    subst hr1
    have hdone := fun dirty => @metaslabSyncDone_fresh zfsRecover metaslabDebug fragmented order ho
      smo obj sm hdebug dirty txg
    rw [vdevSyncDone, Metaslab.vdevClean, Metaslab.vdevDirty, Metaslab.vdevClean, Metaslab.vdevDirty] at hr2
    rw [hdone, some.injEq] at hr2
    exact hr2 ▸ fresh_refines hh hon hin (Nat.succ_pos _) _
  | step _ hs ih =>
    obtain ⟨hl, ms', hr, rfl⟩ := hs
    obtain ⟨ms'', hr', h'⟩ := ih.step hl
    rw [hr, some.injEq] at hr'
    exact hr' ▸ h'

end Steps

end Osol.Zfs
