import Osol.Zfs.SpaceMap.Fold
import Osol.Zfs.SpaceMap.Log

/-!
# Replaying a log

`Replays g ws N` says that the words `ws` are a log of the region `g` that leaves the
set `N` allocated: every allocation in it is off the set so far and every free inside
it. Loading such a log returns, with `N` or its complement in the map.
-/

namespace Osol.Zfs

open Osol.Lib SpaceMap Set List Nat

/-! ## Decoding what was encoded -/

section Words

variable {t : MapType} {u k : ℕ}

theorem MapType.code_lt (t : MapType) : t.code < 2 := by cases t <;> decide

theorem MapType.code_inj {t t' : MapType} : t.code = t'.code ↔ t = t' := by
  cases t <;> cases t' <;> decide

theorem smRunMax_eq : smRunMax = 2 ^ 15 := by decide

theorem bf64Encode_of_lt {x low len : ℕ} (h : x < 2 ^ len) : bf64Encode x low len = x * 2 ^ low := by
  rw [bf64Encode, p2phase_two_pow, mod_eq_of_lt h, shiftLeft_eq]

theorem bf64Decode_eq (x low len : ℕ) : bf64Decode x low len = x / 2 ^ low % 2 ^ len := by
  rw [bf64Decode, p2phase_two_pow, shiftRight_eq_div_pow]

section

variable (hu : u < 2 ^ 47) (hk : 0 < k) (hk' : k ≤ smRunMax)
include hu hk hk'

theorem runWord_eq : runWord t u k = u * 2 ^ 16 + (t.code * 2 ^ 15 + (k - 1)) := by
  have ht := t.code_lt
  rw [smRunMax_eq] at hk'
  rw [runWord, smOffsetEncode, smTypeEncode, smRunEncode, bf64Encode_of_lt hu,
    bf64Encode_of_lt (by omega), bf64Encode_of_lt (by omega), Nat.or_assoc, Nat.pow_zero,
    Nat.mul_one, ← shiftLeft_eq t.code, ← shiftLeft_eq u,
    ← shiftLeft_add_eq_or_of_lt (show k - 1 < 2 ^ 15 by omega),
    ← shiftLeft_add_eq_or_of_lt (by rw [shiftLeft_eq]; omega)]

theorem smDebugDecode_runWord : smDebugDecode (runWord t u k) = 0 := by
  have ht := t.code_lt
  rw [runWord_eq hu hk hk', smDebugDecode, bf64Decode_eq]
  rw [smRunMax_eq] at hk'
  omega

theorem smTypeDecode_runWord : smTypeDecode (runWord t u k) = t.code := by
  have ht := t.code_lt
  rw [runWord_eq hu hk hk', smTypeDecode, bf64Decode_eq]
  rw [smRunMax_eq] at hk'
  omega

theorem smOffsetDecode_runWord : smOffsetDecode (runWord t u k) = u := by
  have ht := t.code_lt
  rw [runWord_eq hu hk hk', smOffsetDecode, bf64Decode_eq]
  rw [smRunMax_eq] at hk'
  omega

theorem smRunDecode_runWord : smRunDecode (runWord t u k) = k := by
  rw [runWord_eq hu hk hk', smRunDecode, bf64Decode_eq]
  rw [smRunMax_eq] at hk'
  omega

end

theorem smDebugDecode_debugWord (t : MapType) (syncPass txg : ℕ) :
    smDebugDecode (debugWord t syncPass txg) ≠ 0 := by
  have hbit : (debugWord t syncPass txg).testBit 63 = true := by
    have h63 : (smDebugEncode 1).testBit 63 = true := by decide
    simp [debugWord, testBit_or, h63]
  rw [smDebugDecode, bf64Decode_eq]
  rw [testBit_eq_decide_div_mod_eq, decide_eq_true_iff] at hbit
  omega

end Words

/-! ## Regions -/

/-- The range a map of a log is about: whole units, at most `2 ^ 47` of them, below
the last 64-bit offset. -/
structure Region where
  start : ℕ
  units : ℕ
  shift : ℕ
  start_dvd : 2 ^ shift ∣ start
  units_pos : 0 < units
  units_le : units ≤ 2 ^ 47
  stop_lt : start + units * 2 ^ shift < 2 ^ 64

namespace Region

variable (g : Region)

def size : ℕ := g.units * 2 ^ g.shift

def unit (u : ℕ) : ℕ := g.start + u * 2 ^ g.shift

/-- All offsets. -/
def whole : Set ℕ := Set.Ico g.start (g.start + g.size)

def run (u k : ℕ) : Set ℕ := Set.Ico (g.unit u) (g.unit (u + k))

variable {g : Region} {u k : ℕ}

theorem size_pos : 0 < g.size := Nat.mul_pos g.units_pos (Nat.two_pow_pos _)

theorem stop_lt' : g.start + g.size < 2 ^ 64 := g.stop_lt

theorem unit_mono {u v : ℕ} (h : u ≤ v) : g.unit u ≤ g.unit v :=
  Nat.add_le_add_left (Nat.mul_le_mul_right _ h) _

theorem unit_add (u k : ℕ) : g.unit (u + k) = g.unit u + k * 2 ^ g.shift := by
  rw [unit, unit, Nat.add_mul, Nat.add_assoc]

theorem unit_dvd (u : ℕ) : 2 ^ g.shift ∣ g.unit u :=
  Nat.dvd_add g.start_dvd (Nat.dvd_mul_left _ _)

theorem run_zero (u : ℕ) : g.run u 0 = ∅ := by simp [run]

theorem run_add (u j k : ℕ) : g.run u (j + k) = g.run u j ∪ g.run (u + j) k := by
  rw [run, run, run, ← Nat.add_assoc]
  exact (Ico_union_Ico_eq_Ico (unit_mono (by omega)) (unit_mono (by omega))).symm

theorem run_disjoint (u j k : ℕ) : Disjoint (g.run u j) (g.run (u + j) k) := by
  refine disjoint_left.2 fun x hx hx' => ?_
  exact absurd (lt_of_lt_of_le hx.2 hx'.1) (lt_irrefl _)

end Region

structure SpaceMap.On (sm : SpaceMap) (g : Region) : Prop where
  start : sm.smStart = g.start
  size : sm.smSize = g.size
  shift : sm.smShift = g.shift

theorem SpaceMap.On.of_frame {sm sm' : SpaceMap} {g : Region} (h : sm.On g) (hf : Frame sm sm') :
    sm'.On g :=
  ⟨hf.start.trans h.start, hf.size.trans h.size, hf.shift.trans h.shift⟩

theorem SpaceMap.On.fits_run {sm : SpaceMap} {g : Region} (h : sm.On g) {u k : ℕ}
    (hu : u + k ≤ g.units) : sm.Fits ⟨g.unit u, g.unit (u + k)⟩ := by
  have hle : g.unit (u + k) ≤ g.start + g.size := Region.unit_mono hu
  refine ⟨h.shift ▸ Region.unit_dvd u, h.shift ▸ Region.unit_dvd (u + k), ?_, ?_, ?_⟩
  · rw [h.start]
    exact Nat.le_add_right _ _
  · rwa [h.start, h.size]
  · exact lt_of_le_of_lt hle g.stop_lt'

/-! ## Logs -/

namespace MapType

/-- What a run of this type does to the allocated set. -/
def op : MapType → SegOp
  | alloc => .add
  | free => .remove

/-- What a map of this type holds when the set `N` is allocated. -/
def view (g : Region) : MapType → Set ℕ → Set ℕ
  | alloc, N => N
  | free, N => g.whole \ N

end MapType

/-- The words `ws` are a log that leaves `N` allocated. -/
inductive Replays (g : Region) : List ℕ → Set ℕ → Prop
  | nil : Replays g [] ∅
  | debug {ws N w} : Replays g ws N → smDebugDecode w ≠ 0 → Replays g (ws ++ [w]) N
  | run {ws N} (t : MapType) {u k : ℕ} : Replays g ws N → 0 < k → k ≤ smRunMax →
      u + k ≤ g.units → t.op.Pre N (g.run u k) →
      Replays g (ws ++ [runWord t u k]) (t.op.apply N (g.run u k))

variable {g : Region} {ws : List ℕ} {N : Set ℕ} {sm : SpaceMap}

theorem Region.run_subset {u k : ℕ} (h : u + k ≤ g.units) : g.run u k ⊆ g.whole :=
  fun _ hx => ⟨(Nat.le_add_right _ _).trans hx.1, lt_of_lt_of_le hx.2 (unit_mono h)⟩

theorem Replays.subset (h : Replays g ws N) : N ⊆ g.whole := by
  induction h with
  | nil => exact empty_subset _
  | debug _ _ ih => exact ih
  | run t _ _ _ hu _ ih =>
    cases t with
    | alloc => exact union_subset ih (Region.run_subset hu)
    | free => exact sdiff_subset.trans ih

theorem loadEntry_run (zfsRecover : Bool) (maptype t : MapType) {u k : ℕ} (h : sm.Inv)
    (hg : sm.On g) (hd : sm.denote = maptype.view g N) (hk : 0 < k) (hk' : k ≤ smRunMax)
    (hu : u + k ≤ g.units) (hp : t.op.Pre N (g.run u k)) :
    ∃ sm', loadEntry zfsRecover maptype sm (runWord t u k) = some sm' ∧
      sm.Becomes sm' (maptype.view g (t.op.apply N (g.run u k))) := by
  have hu' : u < 2 ^ 47 := lt_of_lt_of_le (by omega) g.units_le
  have hstop := g.stop_lt'
  have hle : g.unit (u + k) ≤ g.start + g.size := Region.unit_mono hu
  rw [Region.unit_add, Region.unit] at hle
  have hstart : uadd (u * 2 ^ g.shift % 2 ^ 64) g.start = g.unit u := by
    rw [mod_eq_of_lt (by omega), uadd_of_lt (by omega), Region.unit, Nat.add_comm]
  have hsize : k * 2 ^ g.shift % 2 ^ 64 = k * 2 ^ g.shift := mod_eq_of_lt (by omega)
  have hrun : g.run u k = Set.Ico (g.unit u) (g.unit u + k * 2 ^ g.shift) := by
    rw [Region.run, Region.unit_add]
  have hsub := Region.run_subset hu
  -- the map of the other type sees the run the other way round
  let o : SegOp := if t = maptype then .add else .remove
  have hpre : o.Pre sm.denote (g.run u k) := by
    rw [hd]
    cases t <;> cases maptype
    · exact hp
    · exact subset_sdiff.2 ⟨hsub, hp⟩
    · exact hp
    · exact disjoint_left.2 fun x hx hx' => hx'.2 (hp hx)
  have happly : o.apply sm.denote (g.run u k) = maptype.view g (t.op.apply N (g.run u k)) := by
    rw [hd]
    cases t <;> cases maptype
    · rfl
    · exact sdiff_sdiff
    · rfl
    · ext x
      simp only [o, SegOp.apply, MapType.view, MapType.op, if_true, mem_union, mem_sdiff]
      tauto
  rw [hrun] at hpre
  obtain ⟨sm', hr, hb⟩ := SegOp.returns zfsRecover h (by rw [hg.start, hg.size]; exact hstop)
    (Nat.mul_pos hk (Nat.two_pow_pos _)).ne' (by rw [← Region.unit_add]; exact hg.fits_run hu) hpre
  rw [← hrun, happly] at hb
  refine ⟨sm', ?_, hb⟩
  rw [loadEntry, smDebugDecode_runWord hu' hk hk', smOffsetDecode_runWord hu' hk hk',
    smRunDecode_runWord hu' hk hk', smTypeDecode_runWord hu' hk hk', hg.start, hg.shift, hstart,
    hsize, ← hr]
  by_cases ht : t = maptype
  · simp [o, ht, SegOp.call]
  · simp [o, ht, SegOp.call, MapType.code_inj]

theorem Replays.take (h : Replays g ws N) (k : ℕ) : ∃ N', Replays g (ws.take k) N' := by
  induction h with
  | nil => exact ⟨∅, by simpa using .nil⟩
  | @debug ws N w hl hw ih =>
    rcases Nat.lt_or_ge ws.length k with hk | hk
    · exact ⟨N, by rw [take_of_length_le (by simpa using hk)]; exact hl.debug hw⟩
    · rwa [take_append_of_le_length hk]
  | @run ws N t u k' hl hk hk' hu hp ih =>
    rcases Nat.lt_or_ge ws.length k with hlt | hle
    · exact ⟨_, by rw [take_of_length_le (by simpa using hlt)]; exact hl.run t hk hk' hu hp⟩
    · rwa [take_append_of_le_length hle]

/-- Loading a log brings a map that starts as the view of the empty set to the view of
what the log leaves allocated. -/
theorem Replays.load (h : Replays g ws N) (zfsRecover : Bool) (maptype : MapType) (hs : sm.Inv)
    (hg : sm.On g) (hd : sm.denote = maptype.view g ∅) :
    ∃ sm', ws.foldlM (loadEntry zfsRecover maptype) sm = some sm' ∧ sm.Becomes sm' (maptype.view g N) := by
  induction h with
  | nil => exact ⟨sm, rfl, hs, hd, Frame.refl sm⟩
  | @debug ws N w _ hw ih =>
    obtain ⟨sm1, hr, hb⟩ := ih
    refine ⟨sm1, ?_, hb⟩
    rw [foldlM_append, hr]
    simp [loadEntry, hw]
  | @run ws N t u k hl hk hk' hu hp ih =>
    obtain ⟨sm1, hr, hb⟩ := ih
    obtain ⟨sm2, hr2, hb2⟩ := loadEntry_run zfsRecover maptype t hb.inv (hg.of_frame hb.frame)
      hb.denote hk hk' hu hp
    refine ⟨sm2, ?_, hb.trans hb2⟩
    rw [foldlM_append, hr]
    simpa using hr2

/-! ## Loading -/

variable {obj : Object} {zfsRecover : Bool} {maptype : MapType}

theorem dmuRead_zero (offset : ℕ) : dmuRead obj offset 0 = [] := by simp [dmuRead]

theorem dmuRead_add {offset a : ℕ} (b : ℕ) (ho : 8 ∣ offset) (ha : 8 ∣ a) :
    dmuRead obj offset (a + b) = dmuRead obj offset a ++ dmuRead obj (offset + a) b := by
  obtain ⟨o, rfl⟩ := ho
  obtain ⟨a, rfl⟩ := ha
  have h1 : (8 * a + b) / 8 = a + b / 8 := by omega
  have h2 : (8 * o + 8 * a) / 8 = o + a := by omega
  simp only [dmuRead, h1, h2, range_add, map_append, map_map]
  simp [Function.comp_def, Nat.add_assoc]

theorem loadLoop_eq {stop : ℕ} (h8 : 8 ∣ stop) :
    ∀ (fuel offset : ℕ) (sm : SpaceMap), 8 ∣ offset → stop ≤ offset + fuel * blockSize →
      loadLoop zfsRecover maptype obj (fun _ => 0) stop fuel offset sm =
        ((dmuRead obj offset (stop - offset)).foldlM (loadEntry zfsRecover maptype) sm >>=
          fun sm' => some (sm', 0))
  | 0, offset, sm, _, hf => by
    rw [Nat.sub_eq_zero_of_le (by omega), dmuRead_zero]
    rfl
  | fuel + 1, offset, sm, ho, hf => by
    have hbs : blockSize = 4096 := rfl
    rw [Nat.add_mul] at hf
    rw [loadLoop]
    split
    · next hlt =>
      have hmin : 8 ∣ min (stop - offset) blockSize := by omega
      have hsplit : stop - offset = min (stop - offset) blockSize + (stop - (offset + blockSize)) :=
        by omega
      have hread : dmuRead obj offset (stop - offset) =
        dmuRead obj offset (min (stop - offset) blockSize) ++
            dmuRead obj (offset + blockSize) (stop - (offset + blockSize)) := by
        rcases Nat.le_total (stop - offset) blockSize with hle | hle
        · rw [Nat.sub_eq_zero_of_le (by omega : stop ≤ offset + blockSize), dmuRead_zero,
            Nat.min_eq_left hle, append_nil]
        · conv_lhs => rw [hsplit, Nat.min_eq_right hle]
          rw [dmuRead_add _ ho (by omega), Nat.min_eq_right hle]
      have hphase : p2phase (min (stop - offset) blockSize) 8 = 0 := p2phase_eq_zero (n := 3).2 hmin
      rw [hread, foldlM_append, if_pos rfl, loadBlock]
      simp only [verify_bind_of hphase, verify_bind_of (show min (stop - offset) blockSize ≠ 0 by omega)]
      rw [bind_assoc]
      congr 1
      funext sm'
      exact loadLoop_eq h8 fuel (offset + blockSize) sm' (by omega) (by omega)
    · next hge =>
      rw [Nat.sub_eq_zero_of_le (by omega), dmuRead_zero]
      rfl

/-- The header and the object hold a log that leaves `N` allocated. -/
structure Holds (g : Region) (smo : SpaceMapObj) (obj : Object) (N : Set ℕ) : Prop where
  dvd : 8 ∣ smo.smoObjsize
  log : Replays g (dmuRead obj 0 smo.smoObjsize) N
  alloc : smo.smoAlloc = N.ncard

theorem holds_empty (g : Region) (obj : Object) : Holds g ⟨0, 0⟩ obj ∅ := by
  refine ⟨Nat.dvd_zero 8, ?_, by simp⟩
  exact .nil

structure SpaceMap.Empty (sm : SpaceMap) (g : Region) : Prop where
  on : sm.On g
  root : sm.smRoot = []
  space : sm.smSpace = 0
  pp : sm.smPpRoot = none

theorem Region.whole_finite (g : Region) : g.whole.Finite := finite_Ico _ _

theorem Region.ncard_whole (g : Region) : g.whole.ncard = g.size := by
  rw [whole, ncard_Ico]
  omega

variable {smo : SpaceMapObj}

theorem Holds.ncard_view (h : Holds g smo obj N) (maptype : MapType) :
    (maptype.view g N).ncard = match maptype with
      | .alloc => smo.smoAlloc
      | .free => usub g.size smo.smoAlloc := by
  cases maptype with
  | alloc => exact h.alloc.symm
  | free =>
    have hle := ncard_le_ncard h.log.subset g.whole_finite
    have hlt := g.stop_lt'
    rw [g.ncard_whole] at hle
    rw [h.alloc, usub_of_le hle (by omega), ← g.ncard_whole]
    exact ncard_sdiff h.log.subset (g.whole_finite.subset h.log.subset)

theorem SpaceMap.Empty.inv (h : sm.Empty g) : sm.Inv := by
  refine ⟨?_, ?_, ?_, ?_, ?_⟩
  · simp [h.root]
  · simp [h.root]
  · simp [h.root]
  · simp [h.root, h.space]
  · simp [h.pp]

theorem SpaceMap.Empty.denote (h : sm.Empty g) : sm.denote = ∅ := by
  simp [SpaceMap.denote, h.root]

section Flags

variable {loaded loading : Bool}

theorem SpaceMap.Inv.withFlags (h : sm.Inv) : (sm.withFlags loaded loading).Inv := by
  refine ⟨h.fresh, h.sep, fun i hi => ?_, h.space, h.pp⟩
  obtain ⟨h1, h2, h3, h4, h5⟩ := h.fits i hi
  exact ⟨h1, h2, h3, h4, h5⟩

theorem SpaceMap.Empty.withFlags (h : sm.Empty g) : (sm.withFlags loaded loading).Empty g :=
  ⟨⟨h.on.start, h.on.size, h.on.shift⟩, h.root, h.space, h.pp⟩

end Flags

theorem SpaceMap.Empty.add_whole (he : sm.Empty g) (zfsRecover : Bool) :
    ∃ sm', spaceMapAdd zfsRecover sm sm.smStart sm.smSize = some sm' ∧ sm.Becomes sm' g.whole := by
  have hw : sm.smStart + sm.smSize < 2 ^ 64 := by
    rw [he.on.start, he.on.size]
    exact g.stop_lt'
  have hpos : sm.smSize ≠ 0 := by
    rw [he.on.size]
    exact g.size_pos.ne'
  have hdvd : 2 ^ sm.smShift ∣ sm.smStart := by
    rw [he.on.shift, he.on.start]
    exact g.start_dvd
  have hdvd' : 2 ^ sm.smShift ∣ sm.smSize := by
    rw [he.on.shift, he.on.size]
    exact Nat.dvd_mul_left _ _
  obtain ⟨sm', hr, hb⟩ := he.inv.add_of_disjoint zfsRecover hpos hw le_rfl le_rfl hdvd hdvd'
    (by rw [he.denote]; exact disjoint_empty _)
  rw [he.denote, empty_union, he.on.start, he.on.size] at hb
  exact ⟨sm', hr, hb⟩

theorem loadBegin_spec (zfsRecover : Bool) (maptype : MapType)
    (he : sm.Empty g) (hh : Holds g smo obj N) :
    ∃ sm', loadBegin zfsRecover maptype smo sm = some (sm', (maptype.view g N).ncard) ∧
      (sm.withFlags sm.smLoaded true).Becomes sm' (maptype.view g ∅) := by
  have he' : (sm.withFlags sm.smLoaded true).Empty g := he.withFlags
  simp only [loadBegin, verify_bind_of he'.space, hh.ncard_view]
  cases maptype with
  | alloc => exact ⟨_, rfl, he'.inv, he'.denote, Frame.refl _⟩
  | free =>
    obtain ⟨sm', hr, hb⟩ := he'.add_whole zfsRecover
    refine ⟨sm', ?_, hb.inv, by rw [hb.denote, MapType.view, sdiff_empty], hb.frame⟩
    have hsize : sm'.smSize = g.size := (he'.on.of_frame hb.frame).size
    simp [hr, hsize]

theorem loadEnd_spec (ops : Bool) (h : sm.Inv) :
    ∃ sm', loadEnd ops sm.denote.ncard sm = some sm' ∧ sm'.Inv ∧ sm'.denote = sm.denote ∧
      sm'.smLoaded = true ∧ sm'.smLoading = false ∧ (ops = true → sm'.smPpRoot.isSome = true) ∧
      sm'.smStart = sm.smStart ∧ sm'.smSize = sm.smSize ∧ sm'.smShift = sm.smShift := by
  rw [loadEnd, verify_bind_of h.space_eq_ncard]
  cases ops with
  | false => exact ⟨_, rfl, h.withFlags.withFlags, rfl, rfl, rfl, by simp, rfl, rfl, rfl⟩
  | true =>
    have hl : (sm.withFlags true sm.smLoading).Inv := h.withFlags
    obtain ⟨pp, hr, hinv⟩ := hl.ppLoad
    exact ⟨_, by rw [if_pos rfl, hr]; rfl, hinv.withFlags, rfl, rfl, rfl, fun _ => rfl, rfl, rfl, rfl⟩

theorem spaceMapLoad_spec (zfsRecover ops : Bool) (maptype : MapType)
    (he : sm.Empty g) (hh : Holds g smo obj N) :
    ∃ sm', spaceMapLoad zfsRecover ops maptype smo obj (fun _ => 0) sm = some (sm', 0) ∧
      sm'.Inv ∧ sm'.denote = maptype.view g N ∧ sm'.On g ∧ sm'.smLoaded = true ∧
      sm'.smLoading = false ∧ (ops = true → sm'.smPpRoot.isSome = true) := by
  obtain ⟨sm1, hr1, hb1⟩ := loadBegin_spec zfsRecover maptype he hh
  have hon1 := he.withFlags.on.of_frame hb1.frame
  obtain ⟨sm2, hr2, hb2⟩ := hh.log.load zfsRecover maptype hb1.inv hon1 hb1.denote
  obtain ⟨sm3, hr3, hinv, hden, hloaded, hloading, hpp, hstart, hsize, hshift⟩ := loadEnd_spec ops hb2.inv
  have hon2 := hon1.of_frame hb2.frame
  refine ⟨sm3, ?_, hinv, hden.trans hb2.denote, ⟨hstart.trans hon2.start, hsize.trans hon2.size,
    hshift.trans hon2.shift⟩, hloaded, hloading, hpp⟩
  have hfuel : smo.smoObjsize ≤ 0 + (smo.smoObjsize / blockSize + 1) * blockSize := by
    rw [show blockSize = 4096 from rfl]
    omega
  rw [hb2.denote] at hr3
  simp [spaceMapLoad, hr1, loadLoop_eq hh.dvd _ 0 sm1 (Nat.dvd_zero 8) hfuel, hr2, hr3]

end Osol.Zfs
