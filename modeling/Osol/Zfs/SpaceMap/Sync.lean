import Osol.Zfs.SpaceMap.Replay

/-!
# Appending to a log

`space_map_sync` writes through a buffer, so the log in the making is what is on disk
followed by what is in the buffer (`SyncState.words`); a flush moves words from one to
the other and `put` adds one. What a call appends is a debug word and the runs of the
segments in destroy order, and a log stays a log (`Holds.sync`).
-/

namespace Osol.Zfs

open Osol.Lib SpaceMap Set List

variable {obj : Object} {t : MapType} {cap : ℕ}

/-! ## The buffer -/

theorem dmuRead_dmuWrite {n : ℕ} (h : 8 ∣ n) (buf : List ℕ) :
    dmuRead (dmuWrite obj n buf) 0 (n + buf.length * 8) = dmuRead obj 0 n ++ buf := by
  obtain ⟨m, rfl⟩ := h
  have h1 : (8 * m + buf.length * 8) / 8 = m + buf.length := by omega
  have h2 : 8 * m / 8 = m := by omega
  apply ext_getElem
  · simp [dmuRead, h1, h2]
  intro k hk _
  have hk' : k < m + buf.length := by simpa [dmuRead, h1] using hk
  simp only [dmuRead, dmuWrite, h2, getElem_map, getElem_range, Nat.zero_div, Nat.zero_add]
  by_cases hm : k < m
  · rw [if_neg (by omega), getElem_append_left (by simpa [h2] using hm)]
    simp
  · rw [if_pos (by omega), getElem_append_right (by simp; omega)]
    simp [List.getElem?_eq_getElem (show k - m < buf.length by omega)]

theorem dmuRead_dmuWrite_of_le {n m : ℕ} (h : m ≤ n) (buf : List ℕ) :
    dmuRead (dmuWrite obj n buf) 0 m = dmuRead obj 0 m := by
  apply ext_getElem
  · simp [dmuRead]
  · intro k hk _
    have hk' : k < m / 8 := by simpa [dmuRead] using hk
    simp only [dmuRead, dmuWrite, getElem_map, getElem_range, Nat.zero_div, Nat.zero_add]
    rw [if_neg (by omega)]

namespace SyncState

variable {st st' : SyncState} {ws : List ℕ}

/-- The log so far: on disk, then in the buffer. -/
def words (st : SyncState) : List ℕ := dmuRead st.obj 0 st.smo.smoObjsize ++ st.buf

/-- `st'` comes from `st` by putting the words `ws`. -/
structure Extends (cap : ℕ) (st st' : SyncState) (ws : List ℕ) : Prop where
  words : st'.words = st.words ++ ws
  dvd : 8 ∣ st'.smo.smoObjsize
  len : st'.buf.length ≤ cap
  alloc : st'.smo.smoAlloc = st.smo.smoAlloc
  written : st'.obj.written + st.smo.smoObjsize = st.obj.written + st'.smo.smoObjsize
  grows : st.smo.smoObjsize ≤ st'.smo.smoObjsize
  keeps : ∀ n ≤ st.smo.smoObjsize, dmuRead st'.obj 0 n = dmuRead st.obj 0 n

theorem Extends.refl (h8 : 8 ∣ st.smo.smoObjsize) (hlen : st.buf.length ≤ cap) : Extends cap st st [] :=
  ⟨by simp, h8, hlen, rfl, rfl, le_rfl, fun _ _ => rfl⟩

theorem Extends.trans {st'' : SyncState} {ws' : List ℕ} (h : Extends cap st st' ws)
    (h' : Extends cap st' st'' ws') : Extends cap st st'' (ws ++ ws') := by
  refine ⟨by rw [h'.words, h.words, append_assoc], h'.dvd, h'.len, h'.alloc.trans h.alloc, ?_,
    h.grows.trans h'.grows, fun n hn => (h'.keeps n (hn.trans h.grows)).trans (h.keeps n hn)⟩
  have h1 := h.written
  have h2 := h'.written
  omega

theorem flush_extends (h8 : 8 ∣ st.smo.smoObjsize) : Extends cap st st.flush [] where
  words := by simp [words, flush, dmuRead_dmuWrite h8]
  dvd := by simp only [flush]; omega
  len := by simp [flush]
  alloc := rfl
  written := by simp only [flush, dmuWrite]; omega
  grows := Nat.le_add_right _ _
  keeps n hn := dmuRead_dmuWrite_of_le hn _

theorem put_extends (h8 : 8 ∣ st.smo.smoObjsize) (hlen : st.buf.length ≤ cap) (hcap : 0 < cap)
    (w : ℕ) : Extends cap st (st.put cap w) [w] := by
  have hadd : ∀ {st1 : SyncState}, 8 ∣ st1.smo.smoObjsize → st1.buf.length < cap →
      Extends cap st1 { st1 with buf := st1.buf ++ [w] } [w] := fun h8 hlt =>
    ⟨by simp [words], h8, by simpa using hlt, rfl, rfl, le_rfl, fun _ _ => rfl⟩
  unfold put
  split
  · have hf : Extends cap st st.flush [] := flush_extends h8
    exact hf.trans (hadd hf.dvd (by simpa [flush] using hcap))
  · next hne => exact hadd h8 (lt_of_le_of_ne hlen hne)

theorem foldl_put_extends (hcap : 0 < cap) :
    ∀ (ws : List ℕ) {st : SyncState}, 8 ∣ st.smo.smoObjsize → st.buf.length ≤ cap →
      Extends cap st (ws.foldl (put cap) st) ws
  | [], _, h8, hlen => Extends.refl h8 hlen
  | w :: ws, _, h8, hlen => by
    have h1 := put_extends h8 hlen hcap w
    exact h1.trans (foldl_put_extends hcap ws h1.dvd h1.len)

end SyncState

/-! ## The words of a map -/

/-- The words for `size` units from unit `start`. -/
def runWords (t : MapType) : ℕ → ℕ → ℕ → List ℕ
  | 0, _, _ => []
  | fuel + 1, start, size =>
    if size = 0 then []
    else runWord t start (min size smRunMax) ::
      runWords t fuel (start + min size smRunMax) (size - min size smRunMax)

def segWords (t : MapType) (sm : SpaceMap) (a : ℕ) : List ℕ :=
  let units := usub (sm.smSeg a).ssEnd (sm.smSeg a).ssStart >>> sm.smShift
  runWords t units (usub (sm.smSeg a).ssStart sm.smStart >>> sm.smShift) units

theorem syncRuns_eq : ∀ (fuel start size : ℕ) (st : SyncState),
    syncRuns t cap fuel start size st = (runWords t fuel start size).foldl (SyncState.put cap) st
  | 0, _, _, _ => rfl
  | fuel + 1, start, size, st => by
    unfold syncRuns runWords
    split
    · rfl
    · exact syncRuns_eq fuel _ _ _

theorem foldl_syncSeg (sm : SpaceMap) : ∀ (order : List ℕ) (space : ℕ) (st : SyncState),
    order.foldl (syncSeg t cap sm) (space, st) =
      (order.foldl (fun n a => usub n (usub (sm.smSeg a).ssEnd (sm.smSeg a).ssStart)) space,
        (order.flatMap (segWords t sm)).foldl (SyncState.put cap) st)
  | [], _, _ => rfl
  | a :: order, space, st => by
    rw [foldl_cons, foldl_cons, flatMap_cons, foldl_append, syncSeg, syncRuns_eq]
    exact foldl_syncSeg sm order _ _

theorem foldl_usub (sm : SpaceMap) : ∀ (order : List ℕ) (space : ℕ),
    (∀ a ∈ order, (sm.smSeg a).ssStart ≤ (sm.smSeg a).ssEnd ∧ (sm.smSeg a).ssEnd < 2 ^ 64) →
    space = (order.map fun a => (sm.smSeg a).len).sum → space < 2 ^ 64 →
    order.foldl (fun n a => usub n (usub (sm.smSeg a).ssEnd (sm.smSeg a).ssStart)) space = 0
  | [], _, _, hs, _ => hs
  | a :: order, space, hseg, hs, hlt => by
    obtain ⟨hle, hend⟩ := hseg a (by simp)
    rw [map_cons, sum_cons] at hs
    have hlen : usub (sm.smSeg a).ssEnd (sm.smSeg a).ssStart = (sm.smSeg a).len := usub_of_le hle hend
    rw [foldl_cons, hlen, usub_of_le (by omega) hlt]
    exact foldl_usub sm order _ (fun b hb => hseg b (by simp [hb])) (by omega) (by omega)

/-! ## The log grows by the map -/

section Grow

variable {g : Region} {ws : List ℕ} {N : Set ℕ} {sm : SpaceMap}

theorem Replays.runWords : ∀ {fuel u k : ℕ} {ws : List ℕ} {N : Set ℕ}, Replays g ws N → k ≤ fuel →
    u + k ≤ g.units → t.op.Pre N (g.run u k) →
    Replays g (ws ++ runWords t fuel u k) (t.op.apply N (g.run u k))
  | 0, u, k, ws, N, h, hk, _, _ => by
    have hk0 : k = 0 := by omega
    subst hk0
    simpa [Zfs.runWords, Region.run_zero] using h
  | fuel + 1, u, k, ws, N, h, hk, hu, hp => by
    have hmax := smRunMax_eq
    unfold Zfs.runWords
    split
    · next hk0 =>
      subst hk0
      simpa [Region.run_zero] using h
    next hk0 =>
    -- the first run, then the rest of the segment
    have hr : min k smRunMax + (k - min k smRunMax) = k := by omega
    have hrun := g.run_add u (min k smRunMax) (k - min k smRunMax)
    rw [hr] at hrun
    rw [hrun] at hp
    have h1 := h.run t (by omega) (by omega) (by omega) hp.left
    have h2 : Replays g (_ ++ Zfs.runWords t fuel (u + min k smRunMax) (k - min k smRunMax)) _ :=
      h1.runWords (by omega) (by omega) (hp.right (g.run_disjoint _ _ _))
    rw [SegOp.apply_union, ← hrun] at h2
    simpa using h2

theorem SpaceMap.Fits.exists_run {ss : SpaceSeg} (hf : sm.Fits ss) (hg : sm.On g)
    (hlt : ss.ssStart < ss.ssEnd) :
    ∃ u k, usub ss.ssStart sm.smStart >>> sm.smShift = u ∧
      usub ss.ssEnd ss.ssStart >>> sm.smShift = k ∧ u + k ≤ g.units ∧
      g.run u k = Set.Ico ss.ssStart ss.ssEnd := by
  obtain ⟨h1, h2, h3, h4, h5⟩ := hf
  rw [hg.start] at h3 h4
  rw [hg.shift] at h1 h2
  rw [hg.size, Region.size] at h4
  have hpos := Nat.two_pow_pos g.shift
  obtain ⟨u, hu⟩ := Nat.dvd_sub h1 g.start_dvd
  obtain ⟨k, hk⟩ := Nat.dvd_sub h2 h1
  rw [Nat.mul_comm] at hu hk
  refine ⟨u, k, ?_, ?_, ?_, ?_⟩
  · rw [hg.start, hg.shift, usub_of_le h3 (by omega), hu, Nat.shiftRight_eq_div_pow,
      Nat.mul_div_cancel _ hpos]
  · rw [hg.shift, usub_of_le hlt.le h5, hk, Nat.shiftRight_eq_div_pow, Nat.mul_div_cancel _ hpos]
  · refine Nat.le_of_mul_le_mul_right ?_ hpos
    rw [Nat.add_mul]
    omega
  · rw [Region.run, Region.unit_add, Region.unit, ← hu, ← hk]
    congr 1 <;> omega

theorem Replays.segs (hg : sm.On g) : ∀ {order : List ℕ} {ws : List ℕ} {N : Set ℕ}, Replays g ws N →
    order.Pairwise (fun a b => Disjoint (Set.Ico (sm.smSeg a).ssStart (sm.smSeg a).ssEnd)
      (Set.Ico (sm.smSeg b).ssStart (sm.smSeg b).ssEnd)) →
    (∀ a ∈ order, (sm.smSeg a).ssStart < (sm.smSeg a).ssEnd ∧ sm.Fits (sm.smSeg a)) →
    t.op.Pre N (coverOf sm.smSeg order) →
    Replays g (ws ++ order.flatMap (segWords t sm)) (t.op.apply N (coverOf sm.smSeg order))
  | [], _, _, h, _, _, _ => by simpa [coverOf] using h
  | a :: order, ws, N, h, hpw, hseg, hp => by
    obtain ⟨hlt, hfit⟩ := hseg a (by simp)
    obtain ⟨hpw1, hpw2⟩ := pairwise_cons.1 hpw
    obtain ⟨u, k, hu, hk, hle, hrun⟩ := hfit.exists_run hg hlt
    have hd : Disjoint (Set.Ico (sm.smSeg a).ssStart (sm.smSeg a).ssEnd)
        (coverOf sm.smSeg order) := by
      refine disjoint_left.2 fun x hx hx' => ?_
      obtain ⟨b, hb, h1, h2⟩ := hx'
      exact disjoint_left.1 (hpw1 b hb) hx ⟨h1, h2⟩
    rw [coverOf_cons] at hp
    have h1 := h.runWords le_rfl hle (by rw [hrun]; exact hp.left)
    rw [hrun] at h1
    have h2 := h1.segs hg hpw2 (fun b hb => hseg b (by simp [hb])) (hp.right hd)
    rw [SegOp.apply_union, ← coverOf_cons, append_assoc] at h2
    have hwords : segWords t sm a = Zfs.runWords t k u k := by rw [segWords, hu, hk]
    rwa [flatMap_cons, hwords]

end Grow

/-! ## `space_map_sync` -/

section Sync

variable {g : Region} {N : Set ℕ} {sm : SpaceMap} {smo : SpaceMapObj} {order : List ℕ}

/-- The log was only appended to, by exactly what was written. -/
structure Appended (smo : SpaceMapObj) (obj : Object) (smo' : SpaceMapObj) (obj' : Object) :
    Prop where
  written : obj'.written + smo.smoObjsize = obj.written + smo'.smoObjsize
  grows : smo.smoObjsize ≤ smo'.smoObjsize
  keeps : ∀ n ≤ smo.smoObjsize, dmuRead obj' 0 n = dmuRead obj 0 n

theorem Appended.refl (smo : SpaceMapObj) (obj : Object) : Appended smo obj smo obj :=
  ⟨rfl, le_rfl, fun _ _ => rfl⟩

theorem Appended.trans {smo' smo'' : SpaceMapObj} {obj obj' obj'' : Object}
    (h : Appended smo obj smo' obj') (h' : Appended smo' obj' smo'' obj'') :
    Appended smo obj smo'' obj'' := by
  refine ⟨?_, h.grows.trans h'.grows, fun n hn => (h'.keeps n (hn.trans h.grows)).trans (h.keeps n hn)⟩
  have h1 := h.written
  have h2 := h'.written
  omega

/-- What a call of `space_map_sync` does: the map is emptied, and the words of its
segments follow a debug word at the end of the log. -/
theorem spaceMapSync_spec (t : MapType) (syncPass txg : ℕ) (obj : Object) (h : sm.Inv)
    (ho : order.Perm sm.smRoot) (hs : sm.smSpace ≠ 0) (h8 : 8 ∣ smo.smoObjsize) :
    ∃ smo' obj', spaceMapSync t syncPass txg order sm smo obj =
        some ({ sm with smRoot := [], smSpace := 0 }, smo', obj') ∧
      dmuRead obj' 0 smo'.smoObjsize = dmuRead obj 0 smo.smoObjsize ++
        debugWord t syncPass txg :: order.flatMap (segWords t sm) ∧
      8 ∣ smo'.smoObjsize ∧ smo'.smoAlloc = allocAfter t smo sm ∧ Appended smo obj smo' obj' := by
  let cap := min ((8 + sm.smRoot.length) * 8) blockSize / 8
  have hcap : 0 < cap := by
    have : blockSize = 4096 := rfl
    omega
  let st0 : SyncState := ⟨[debugWord t syncPass txg], { smo with smoAlloc := allocAfter t smo sm }, obj⟩
  let st1 := (order.flatMap (segWords t sm)).foldl (SyncState.put cap) st0
  let st2 := if st1.buf = [] then st1 else st1.flush
  have he1 : SyncState.Extends cap st0 st1 (order.flatMap (segWords t sm)) :=
    SyncState.foldl_put_extends hcap _ h8 hcap
  have hbuf : st2.buf = [] := by
    simp only [st2]
    split
    · assumption
    · rfl
  have he : SyncState.Extends cap st0 st2 (order.flatMap (segWords t sm)) := by
    simp only [st2]
    split
    · exact he1
    · simpa using he1.trans (SyncState.flush_extends he1.dvd)
  have hspace : order.foldl (fun n a => usub n (usub (sm.smSeg a).ssEnd (sm.smSeg a).ssStart))
      sm.smSpace = 0 := by
    refine foldl_usub sm order _ (fun a ha => ?_) ?_ h.space_lt
    · obtain ⟨hpos, hfit⟩ := h.seg_le ho ha
      exact ⟨hpos.le, hfit.stop_lt⟩
    · rw [h.space]
      exact (ho.map _).sum_eq.symm
  refine ⟨st2.smo, st2.obj, ?_, ?_, he.dvd, he.alloc, he.written, he.grows, he.keeps⟩
  · simp only [spaceMapSync, if_neg hs, foldl_syncSeg, hspace, verify_bind_eq_some, true_and]
    rfl
  · have hw := he.words
    rw [SyncState.words, SyncState.words, hbuf, append_nil] at hw
    rw [hw]
    simp [st0]

theorem Holds.allocAfter (hh : Holds g smo obj N) (h : sm.Inv) (hp : t.op.Pre N sm.denote)
    (hsub : t.op.apply N sm.denote ⊆ g.whole) :
    allocAfter t smo sm = (t.op.apply N sm.denote).ncard := by
  have hfin := g.whole_finite.subset hh.log.subset
  have hlt := g.stop_lt'
  have hle := ncard_le_ncard hh.log.subset g.whole_finite
  rw [g.ncard_whole] at hle
  cases t with
  | alloc =>
    have hcard : (N ∪ sm.denote).ncard = N.ncard + sm.denote.ncard :=
      ncard_union_eq (Disjoint.symm hp) hfin sm.denote_finite
    have hle' := ncard_le_ncard hsub g.whole_finite
    rw [g.ncard_whole] at hle'
    simp only [MapType.op, SegOp.apply] at hle' ⊢
    rw [Zfs.allocAfter, hh.alloc, h.space_eq_ncard, uadd_of_lt (by omega), hcard]
  | free =>
    have hle' := ncard_le_ncard hp hfin
    rw [Zfs.allocAfter, hh.alloc, h.space_eq_ncard, usub_of_le hle' (by omega)]
    exact (ncard_sdiff hp sm.denote_finite).symm

theorem Holds.sync (hh : Holds g smo obj N) (syncPass txg : ℕ) (h : sm.Inv) (hg : sm.On g)
    (ho : order.Perm sm.smRoot) (hp : t.op.Pre N sm.denote) :
    ∃ sm' smo' obj', spaceMapSync t syncPass txg order sm smo obj = some (sm', smo', obj') ∧
      Holds g smo' obj' (t.op.apply N sm.denote) ∧ sm'.smRoot = [] ∧ sm'.smSpace = 0 ∧
      Frame sm sm' ∧ Appended smo obj smo' obj' := by
  by_cases hs : sm.smSpace = 0
  · have hden : sm.denote = ∅ := by rwa [h.space_eq_ncard, ncard_eq_zero sm.denote_finite] at hs
    have hroot : sm.smRoot = [] := by
      refine eq_nil_iff_forall_not_mem.2 fun a ha => ?_
      have hmem : sm.lo a ∈ sm.denote := ⟨a, ha, le_rfl, h.sep.pos a ha⟩
      rwa [hden] at hmem
    refine ⟨sm, smo, obj, by rw [spaceMapSync, if_pos hs], ?_, hroot, hs, Frame.refl sm,
      Appended.refl smo obj⟩
    rwa [hden, SegOp.apply_empty]
  · obtain ⟨smo', obj', hr, hread, hdvd, halloc, happ⟩ :=
      spaceMapSync_spec t syncPass txg obj h ho hs hh.dvd
    have hlog := hh.log.debug (smDebugDecode_debugWord t syncPass txg)
    have hlog' := hlog.segs hg (h.segs_disjoint ho) (fun a ha => h.seg_le ho ha)
      (by rw [coverOf_perm ho]; exact hp)
    rw [coverOf_perm ho, append_assoc, singleton_append, ← hread] at hlog'
    refine ⟨_, smo', obj', hr, ⟨hdvd, hlog', halloc.trans (hh.allocAfter h hp hlog'.subset)⟩, rfl,
      rfl, ⟨rfl, rfl, rfl, rfl, rfl, rfl⟩, happ⟩

end Sync

end Osol.Zfs
