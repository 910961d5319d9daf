import Osol.Zfs.SpaceMap.Sync

/-!
# The log round trip

Any sequence of `space_map_sync` calls, each with a map of allocations off the
allocated set or of frees inside it, leaves an object that `space_map_load` turns back
into the allocated set or its complement.
-/

namespace Osol.Zfs

open SpaceMap Set

structure SyncCall where
  maptype : MapType
  syncPass : ℕ
  txg : ℕ
  order : List ℕ
  sm : SpaceMap

namespace SyncCall

/-- The allocated set after the calls. -/
def net : List SyncCall → Set ℕ → Set ℕ
  | [], N => N
  | c :: cs, N => net cs (c.maptype.op.apply N c.sm.denote)

/-- The calls fit the region and the allocated set: allocations are off it, frees
inside it. -/
def Legal (g : Region) : List SyncCall → Set ℕ → Prop
  | [], _ => True
  | c :: cs, N => c.sm.Inv ∧ c.sm.On g ∧ c.order.Perm c.sm.smRoot ∧
      c.maptype.op.Pre N c.sm.denote ∧ Legal g cs (c.maptype.op.apply N c.sm.denote)

/-- The calls, one after the other. -/
def run : List SyncCall → SpaceMapObj × Object → Option (SpaceMapObj × Object)
  | [], s => some s
  | c :: cs, s => do
    let (_, smo, obj) ← spaceMapSync c.maptype c.syncPass c.txg c.order c.sm s.1 s.2
    run cs (smo, obj)

theorem run_holds {g : Region} : ∀ {cs : List SyncCall} {N : Set ℕ} {smo : SpaceMapObj}
    {obj : Object}, Legal g cs N → Holds g smo obj N → smo.smoObjsize = obj.written →
    ∃ smo' obj', run cs (smo, obj) = some (smo', obj') ∧ Holds g smo' obj' (net cs N) ∧
    smo'.smoObjsize = obj'.written
  | [], _, smo, obj, _, hh, hw => ⟨smo, obj, rfl, hh, hw⟩
  | c :: cs, _, smo, obj, ⟨hinv, hon, ho, hp, hl⟩, hh, hw => by
    obtain ⟨sm', smo1, obj1, hr, hh1, _, _, _, happ⟩ := hh.sync c.syncPass c.txg hinv hon ho hp
    have hwritten := happ.written
    obtain ⟨smo', obj', hr', hh', hw'⟩ := run_holds hl hh1 (by omega)
    exact ⟨smo', obj', by rw [run, hr]; exact hr', hh', hw'⟩

end SyncCall

open SyncCall

/-- All calls return; `smo_alloc` is the number of allocated bytes and `smo_objsize`
the number of bytes written; and both loads return, with the complement of the
allocated set and with the set itself. -/
theorem spaceMapLog_roundTrip (g : Region) {calls : List SyncCall} (h : Legal g calls ∅)
    (word : ℕ → ℕ) :
    ∃ smo obj, run calls (⟨0, 0⟩, ⟨word, 0⟩) = some (smo, obj) ∧
      smo.smoAlloc = (net calls ∅).ncard ∧ smo.smoObjsize = obj.written ∧
      ∀ zfsRecover ops : Bool,
        (∃ sm, spaceMapLoad zfsRecover ops .free smo obj (fun _ => 0)
            (spaceMapCreate g.start g.size g.shift) = some (sm, 0) ∧
          sm.Inv ∧ sm.denote = Ico g.start (g.start + g.size) \ net calls ∅) ∧
        (∃ sm, spaceMapLoad zfsRecover ops .alloc smo obj (fun _ => 0)
            (spaceMapCreate g.start g.size g.shift) = some (sm, 0) ∧
          sm.Inv ∧ sm.denote = net calls ∅) := by
  obtain ⟨smo, obj, hr, hh, hw⟩ := run_holds h (holds_empty g ⟨word, 0⟩) rfl
  refine ⟨smo, obj, hr, hh.alloc, hw, fun zfsRecover ops => ?_⟩
  have he : (spaceMapCreate g.start g.size g.shift).Empty g := ⟨⟨rfl, rfl, rfl⟩, rfl, rfl, rfl⟩
  obtain ⟨sm1, hl1, hinv1, hd1, _⟩ := spaceMapLoad_spec zfsRecover ops .free he hh
  obtain ⟨sm2, hl2, hinv2, hd2, _⟩ := spaceMapLoad_spec zfsRecover ops .alloc he hh
  exact ⟨⟨sm1, hl1, hinv1, hd1⟩, sm2, hl2, hinv2, hd2⟩

theorem exists_single (g : Region) {u k : ℕ} (hk : k ≠ 0) (hu : u + k ≤ g.units) :
    ∃ sm : SpaceMap, sm.Inv ∧ sm.On g ∧ sm.denote = g.run u k := by
  have hon : (spaceMapCreate g.start g.size g.shift).On g := ⟨rfl, rfl, rfl⟩
  obtain ⟨sm, _, hb⟩ := SegOp.returns (o := .add) false (create_inv g.start g.size g.shift)
    g.stop_lt' (Nat.mul_ne_zero hk (Nat.two_pow_pos _).ne')
    (by rw [← Region.unit_add]; exact hon.fits_run hu)
    (by rw [create_denote]; exact disjoint_empty _)
  refine ⟨sm, hb.inv, hon.of_frame hb.frame, ?_⟩
  rw [hb.denote, create_denote, ← Region.unit_add]
  exact empty_union _

def eightSectors : Region where
  start := 4096
  units := 8
  shift := 9
  start_dvd := by decide
  units_pos := by decide
  units_le := by decide
  stop_lt := by decide

theorem spaceMapLog_roundTrip_sectors : ∃ (smo : SpaceMapObj) (obj : Object) (sm : SpaceMap),
    smo.smoAlloc = (Ico 4096 5632 \ Ico 4608 5120).ncard ∧
      spaceMapLoad false true .alloc smo obj (fun _ => 0) (spaceMapCreate 4096 4096 9) =
        some (sm, 0) ∧
      sm.denote = Ico 4096 5632 \ Ico 4608 5120 := by
  obtain ⟨a, ha, hag, had⟩ := exists_single eightSectors (u := 0) (k := 3) (by decide) (by decide)
  obtain ⟨f, hf, hfg, hfd⟩ := exists_single eightSectors (u := 1) (k := 1) (by decide) (by decide)
  have had' : a.denote = Ico 4096 5632 := had
  have hfd' : f.denote = Ico 4608 5120 := hfd
  have hnet : net [⟨.alloc, 1, 4, a.smRoot, a⟩, ⟨.free, 2, 4, f.smRoot, f⟩] ∅ =
      Ico 4096 5632 \ Ico 4608 5120 := by
    simp [net, MapType.op, SegOp.apply, had', hfd']
  have hlegal : Legal eightSectors [⟨.alloc, 1, 4, a.smRoot, a⟩, ⟨.free, 2, 4, f.smRoot, f⟩] ∅ := by
    refine ⟨ha, hag, .refl _, disjoint_empty _, hf, hfg, .refl _, ?_, trivial⟩
    simp only [MapType.op, SegOp.Pre, SegOp.apply, had', hfd', empty_union]
    exact Ico_subset_Ico (by decide) (by decide)
  obtain ⟨smo, obj, _, halloc, _, hload⟩ :=
    spaceMapLog_roundTrip eightSectors hlegal (fun _ => 0)
  obtain ⟨_, sm, hl, _, hd⟩ := hload false true
  exact ⟨smo, obj, sm, by rw [halloc, hnet], hl, by rw [hd, hnet]⟩

end Osol.Zfs
