import Osol.Zfs.SpaceMap.Add

/-!
# `space_map_remove`

`space_map_remove` cuts its range out of the one segment that holds it: `Inv.remove`
for any call that returns, `Inv.remove_of_subset` for the calls that do.
-/

namespace Osol.Zfs

open Osol.Lib Osol.Avl Function Set List

namespace SpaceMap

variable {sm sm' : SpaceMap} {start stop size : ℕ}

section Cut

variable {l1 l2 parts : List ℕ} {ss n : ℕ} {seg' : ℕ → SpaceSeg}

/-- What is left of the segment at `ss` when `[start, stop)` is cut out of it: the
segments `parts` of the memory `seg'`. -/
structure Cut (sm : SpaceMap) (start stop : ℕ) (ss : ℕ) (l1 parts l2 : List ℕ)
    (seg' : ℕ → SpaceSeg) (n : ℕ) : Prop where
  root : sm.smRoot = l1 ++ ([ss] ++ l2)
  start_ge : sm.lo ss ≤ start
  stop_le : stop ≤ sm.hi ss
  seg : ∀ i ∈ l1 ++ l2, seg' i = sm.smSeg i
  next : sm.smNext ≤ n
  fresh : ∀ i ∈ parts, i < n
  sep : Separated (fun i => (seg' i).ssStart) (fun i => (seg' i).ssEnd) parts
  lo_le : ∀ i ∈ parts, sm.lo ss ≤ (seg' i).ssStart
  le_hi : ∀ i ∈ parts, (seg' i).ssEnd ≤ sm.hi ss
  dvd : ∀ i ∈ parts, 2 ^ sm.smShift ∣ (seg' i).ssStart ∧ 2 ^ sm.smShift ∣ (seg' i).ssEnd
  diff : cover (fun i => (seg' i).ssStart) (fun i => (seg' i).ssEnd) parts =
    Set.Ico (sm.lo ss) (sm.hi ss) \ Set.Ico start stop
  len : (parts.map fun i => (seg' i).len).sum + (stop - start) = (sm.smSeg ss).len

/-- The map with the segment at `ss` replaced by what is left of it. -/
def cutTo (sm : SpaceMap) (l1 parts l2 : List ℕ) (seg' : ℕ → SpaceSeg) (n : ℕ)
    (pp : Option (List ℕ)) : SpaceMap :=
  { sm with smRoot := l1 ++ (parts ++ l2), smPpRoot := pp, smSeg := seg', smNext := n }

section

variable (h : sm.Inv) (hc : sm.Cut start stop ss l1 parts l2 seg' n)
include h hc

theorem Inv.cut_sep : Separated (fun i => (seg' i).ssStart) (fun i => (seg' i).ssEnd)
    (l1 ++ (parts ++ l2)) := by
  have hsep := h.sep
  rw [hc.root] at hsep
  obtain ⟨_, hs2, hs12⟩ := separated_append.1 hsep
  obtain ⟨_, _, hright⟩ := separated_cons.1 hs2
  refine hsep.splice hc.sep (fun i hi => by rw [lo, hc.seg i hi])
    (fun i hi => by rw [SpaceMap.hi, hc.seg i hi]) ?_ ?_
  · exact fun i hi j hj => lt_of_lt_of_le (hs12 i hi ss (by simp)) (hc.lo_le j hj)
  · exact fun i hi j hj => lt_of_le_of_lt (hc.le_hi i hi) (hright j hj)

theorem Inv.cut_lt {i : ℕ} (hi : i ∈ l1 ++ (parts ++ l2)) : (seg' i).ssEnd < 2 ^ 64 := by
  have hmem : i ∈ parts ∨ i ∈ l1 ++ l2 := by
    simp only [mem_append] at hi ⊢
    tauto
  rcases hmem with hi | hi
  · exact lt_of_le_of_lt (hc.le_hi i hi) (h.fits ss (by simp [hc.root])).stop_lt
  · rw [hc.seg i hi]
    refine (h.fits i ?_).stop_lt
    simp only [hc.root, mem_append] at hi ⊢
    tauto

theorem Inv.cut {sp : ℕ} {p : Option (List ℕ)} (hsp : sp + (stop - start) = sm.smSpace)
    (hpsome : p.isSome = sm.smPpRoot.isSome)
    (hpok : ∀ pp, p = some pp → PpOk seg' (l1 ++ (parts ++ l2)) pp) :
    sm.Becomes { sm.cutTo l1 parts l2 seg' n p with smSpace := sp }
      (sm.denote \ Set.Ico start stop) := by
  have hssf := h.fits ss (by simp [hc.root])
  have hlen := hc.len
  have hframe : Frame sm { sm.cutTo l1 parts l2 seg' n p with smSpace := sp } :=
    ⟨rfl, rfl, rfl, rfl, rfl, hpsome⟩
  refine ⟨h.splice hframe hc.root rfl hc.seg hc.next hc.fresh (h.cut_sep hc) ?_ ?_ hpok, ?_, hframe⟩
  · intro i hi
    exact ⟨(hc.dvd i hi).1, (hc.dvd i hi).2, hssf.start_le.trans (hc.lo_le i hi),
      (hc.le_hi i hi).trans hssf.stop_le, lt_of_le_of_lt (hc.le_hi i hi) hssf.stop_lt⟩
  · simp only [cutTo, map_cons, map_nil, sum_cons, sum_nil]
    omega
  have hroot' : (sm.cutTo l1 parts l2 seg' n p).smRoot = l1 ++ (parts ++ l2) := rfl
  obtain ⟨hd, hd'⟩ := denote_splice hc.root hroot' hc.seg
  -- the other segments lie off the segment at `ss`, hence off the range
  have hoff : Disjoint (cover sm.lo sm.hi (l1 ++ l2)) (Set.Ico start stop) := by
    refine disjoint_left.2 ?_
    rintro x ⟨i, hi, h1, h2⟩ hx
    have hsep := h.sep
    rw [hc.root] at hsep
    obtain ⟨_, hs2, hs12⟩ := separated_append.1 hsep
    have hstart := hc.start_ge.trans hx.1
    have hstop := lt_of_lt_of_le hx.2 hc.stop_le
    rcases mem_append.1 hi with hi | hi
    · have := hs12 i hi ss (by simp)
      omega
    · have := (separated_cons.1 hs2).2.2 i hi
      omega
  calc _ = (sm.cutTo l1 parts l2 seg' n p).denote := denote_congr rfl rfl
    _ = cover sm.lo sm.hi (l1 ++ l2) ∪ (Set.Ico (sm.lo ss) (sm.hi ss) \ Set.Ico start stop) := by
      rw [hd', ← hc.diff]; rfl
    _ = sm.denote \ Set.Ico start stop := by
      rw [hd, union_sdiff_distrib, hoff.sdiff_eq_left]
      simp [cover_cons]

theorem Inv.ppRemove_ok {pp : List ℕ}
    (hp : (sm.ppRemove ss).smPpRoot = some pp) : PpOk seg' (l1 ++ l2) pp := by
  obtain ⟨pp0, hp0, rfl⟩ := Option.map_eq_some_iff.1 hp
  have hok := (h.pp pp0 hp0).of_perm (hc.root ▸ perm_middle)
  exact hok.remove.congr hc.seg

end

theorem Inv.cut_trim (h : sm.Inv) (hroot : sm.smRoot = l1 ++ ss :: l2) {sg : SpaceSeg}
    (hlo : sm.lo ss ≤ start) (hlt : start < stop) (hhi : stop ≤ sm.hi ss)
    (hdvd : 2 ^ sm.smShift ∣ start) (hdvd' : 2 ^ sm.smShift ∣ stop)
    (hsg : sg = ⟨sm.lo ss, start⟩ ∧ sm.lo ss < start ∧ sm.hi ss = stop ∨
      sg = ⟨stop, sm.hi ss⟩ ∧ sm.lo ss = start ∧ stop < sm.hi ss) :
    sm.Cut start stop ss l1 [ss] l2 (update sm.smSeg ss sg) sm.smNext where
  root := hroot
  start_ge := hlo
  stop_le := hhi
  seg i hi := by
    have hm := h.notMem hroot
    have hne : i ≠ ss := fun he => by
      subst he
      exact (mem_append.1 hi).elim hm.1 hm.2
    simp [hne]
  next := le_rfl
  fresh := by simpa using h.fresh ss (by simp [hroot])
  sep := by
    refine separated_cons.2 ⟨?_, separated_nil, by simp⟩
    rcases hsg with ⟨rfl, _, _⟩ | ⟨rfl, _, _⟩ <;> simpa
  lo_le := by
    rcases hsg with ⟨rfl, _, _⟩ | ⟨rfl, _, _⟩ <;> simp
    omega
  le_hi := by
    rcases hsg with ⟨rfl, _, _⟩ | ⟨rfl, _, _⟩ <;> simp
    omega
  dvd := by
    have hf := h.fits ss (by simp [hroot])
    rcases hsg with ⟨rfl, _, _⟩ | ⟨rfl, _, _⟩
    · simpa using ⟨hf.start_dvd, hdvd⟩
    · simpa using ⟨hdvd', hf.stop_dvd⟩
  diff := by
    ext x
    rcases hsg with ⟨rfl, _, _⟩ | ⟨rfl, _, _⟩ <;> simp [cover_cons] <;> omega
  len := by
    rw [seg_len]
    rcases hsg with ⟨rfl, _, _⟩ | ⟨rfl, _, _⟩ <;> simp [SpaceSeg.len] <;> omega

theorem Inv.cutTo_ppAdd (h : sm.Inv) (hc : sm.Cut start stop ss l1 parts l2 seg' n)
    {p : Option (List ℕ)} {k1 k2 : List ℕ} {a : ℕ}
    (hsub : (k1 ++ a :: k2).Sublist (l1 ++ (parts ++ l2)))
    (hpp : ∀ pp, p = some pp → PpOk seg' (k1 ++ k2) pp) :
    ∃ p', (sm.cutTo l1 parts l2 seg' n p).ppAdd a = some (sm.cutTo l1 parts l2 seg' n p') ∧
      p'.isSome = p.isSome ∧ ∀ pp, p' = some pp → PpOk seg' (k1 ++ a :: k2) pp :=
  ppAdd_spec ((h.cut_sep hc).sublist hsub) (fun _ hi => h.cut_lt hc (hsub.subset hi)) hpp

theorem Inv.ppAdd_trim (h : sm.Inv) {sg : SpaceSeg}
    (hc : sm.Cut start stop ss l1 [ss] l2 (update sm.smSeg ss sg) sm.smNext) :
    ∃ p, ((sm.ppRemove ss).setSeg ss sg).ppAdd ss =
      some (sm.cutTo l1 [ss] l2 (update sm.smSeg ss sg) sm.smNext p) ∧ p.isSome = sm.smPpRoot.isSome ∧
      ∀ pp, p = some pp → PpOk (update sm.smSeg ss sg) (l1 ++ ([ss] ++ l2)) pp := by
  obtain ⟨p, hadd, hpsome, hpok⟩ := h.cutTo_ppAdd hc (Sublist.refl _)
    (fun pp hp => h.ppRemove_ok hc hp)
  refine ⟨p, ?_, by simpa [ppRemove] using hpsome, hpok⟩
  rw [← hadd]
  simp [cutTo, setSeg, ppRemove, hc.root]

/-- The memory after a split of the segment at `ss`. -/
def splitMem (sm : SpaceMap) (ss start stop : ℕ) : ℕ → SpaceSeg :=
  update (update sm.smSeg sm.smNext ⟨stop, sm.hi ss⟩) ss ⟨sm.lo ss, start⟩

theorem Inv.cut_split (h : sm.Inv) (hroot : sm.smRoot = l1 ++ ss :: l2)
    (hlo : sm.lo ss < start) (hlt : start < stop) (hhi : stop < sm.hi ss)
    (hdvd : 2 ^ sm.smShift ∣ start) (hdvd' : 2 ^ sm.smShift ∣ stop) :
    sm.Cut start stop ss l1 [ss, sm.smNext] l2 (sm.splitMem ss start stop) (sm.smNext + 1) := by
  have hssn : ss < sm.smNext := h.fresh ss (by simp [hroot])
  have hf := h.fits ss (by simp [hroot])
  have hss : sm.splitMem ss start stop ss = ⟨sm.lo ss, start⟩ := by simp [splitMem]
  have hnew : sm.splitMem ss start stop sm.smNext = ⟨stop, sm.hi ss⟩ := by simp [splitMem, hssn.ne']
  constructor
  case root => exact hroot
  case start_ge => exact hlo.le
  case stop_le => exact hhi.le
  case seg =>
    intro i hi
    have hm := h.notMem hroot
    have hne : i ≠ ss := fun he => by
      subst he
      exact (mem_append.1 hi).elim hm.1 hm.2
    have hin : i ∈ sm.smRoot := by
      simp only [hroot, mem_append, mem_cons] at hi ⊢
      tauto
    simp [splitMem, hne, (h.fresh i hin).ne]
  case next => omega
  case fresh => simp; omega
  case sep =>
    refine separated_cons.2 ⟨?_, separated_cons.2 ⟨?_, separated_nil, by simp⟩, ?_⟩
    · simpa [hss] using hlo
    · simpa [hnew] using hhi
    · simpa [hss, hnew] using hlt
  case lo_le => simp [hss, hnew]; omega
  case le_hi => simp [hss, hnew]; omega
  case dvd =>
    simp only [mem_cons, not_mem_nil, or_false, forall_eq_or_imp, forall_eq, hss, hnew]
    exact ⟨⟨hf.start_dvd, hdvd⟩, hdvd', hf.stop_dvd⟩
  case diff =>
    ext x
    simp only [cover_cons, cover_nil, hss, hnew, mem_union, mem_Ico, mem_sdiff, mem_empty_iff_false,
      or_false]
    omega
  case len =>
    rw [seg_len]
    simp only [map_cons, map_nil, sum_cons, sum_nil, hss, hnew, SpaceSeg.len]
    omega

theorem Inv.splitSeg (h : sm.Inv)
    (hc : sm.Cut start stop ss l1 [ss, sm.smNext] l2 (sm.splitMem ss start stop) (sm.smNext + 1)) :
    ∃ p, splitSeg (sm.ppRemove ss) ss start stop =
        some (sm.cutTo l1 [ss, sm.smNext] l2 (sm.splitMem ss start stop) (sm.smNext + 1) p) ∧
      p.isSome = sm.smPpRoot.isSome ∧
      ∀ pp, p = some pp → PpOk (sm.splitMem ss start stop) (l1 ++ ([ss, sm.smNext] ++ l2)) pp := by
  have hroot : sm.smRoot = l1 ++ ss :: l2 := hc.root
  have hne : ss ≠ sm.smNext := (h.fresh ss (by simp [hroot])).ne
  have hins : avlInsertHere sm.smRoot sm.smNext ss .after = l1 ++ ss :: sm.smNext :: l2 := by
    rw [hroot]
    exact avlInsertHere_after _ (h.notMem hroot).1
  -- first the new segment enters the picker tree, then the old one
  have hsub : (l1 ++ sm.smNext :: l2).Sublist (l1 ++ ([ss, sm.smNext] ++ l2)) :=
    (Sublist.refl l1).append (sublist_cons_self ss _)
  obtain ⟨p1, hadd1, hsome1, hok1⟩ := h.cutTo_ppAdd hc hsub (fun pp hp => h.ppRemove_ok hc hp)
  obtain ⟨p2, hadd2, hsome2, hok2⟩ := h.cutTo_ppAdd hc (Sublist.refl _) hok1
  refine ⟨p2, ?_, by rw [hsome2, hsome1]; simp [ppRemove], hok2⟩
  have hsplit : Zfs.splitSeg (sm.ppRemove ss) ss start stop =
      ((sm.cutTo l1 [ss, sm.smNext] l2 (sm.splitMem ss start stop) (sm.smNext + 1)
        (sm.ppRemove ss).smPpRoot).ppAdd sm.smNext >>= fun sm => sm.ppAdd ss) := by
    simp [Zfs.splitSeg, cutTo, setSeg, ppRemove, hins, splitMem, hne, lo, SpaceMap.hi]
  rwa [hsplit, hadd1]

theorem cut_drop (hroot : sm.smRoot = l1 ++ ss :: l2) (hlo : sm.lo ss = start)
    (hhi : sm.hi ss = stop) : sm.Cut start stop ss l1 [] l2 sm.smSeg sm.smNext where
  root := hroot
  start_ge := hlo.le
  stop_le := hhi.ge
  seg _ _ := rfl
  next := le_rfl
  fresh := by simp
  sep := separated_nil
  lo_le := by simp
  le_hi := by simp
  dvd := by simp
  diff := by simp [hlo, hhi]
  len := by rw [seg_len]; simp [hlo, hhi]

/-- Whichever branch is taken, `space_map_remove` cuts the range out of the segment
that holds it. -/
theorem Inv.removeAt (h : sm.Inv) (hmem : ss ∈ sm.smRoot) (hlo : sm.lo ss ≤ start)
    (hlt : start < stop) (hhi : stop ≤ sm.hi ss) (hdvd : 2 ^ sm.smShift ∣ start)
    (hdvd' : 2 ^ sm.smShift ∣ stop) :
    ∃ l1 parts l2 seg' n p, spaceMapRemoveAt sm ss start stop =
        some (sm.cutTo l1 parts l2 seg' n p) ∧ sm.Cut start stop ss l1 parts l2 seg' n ∧
      p.isSome = sm.smPpRoot.isSome ∧
      ∀ pp, p = some pp → PpOk seg' (l1 ++ (parts ++ l2)) pp := by
  obtain ⟨l1, l2, hroot⟩ := append_of_mem hmem
  simp only [spaceMapRemoveAt]
  split
  · next hover =>
    have hc := h.cut_split hroot (lt_of_le_of_ne hlo hover.1) hlt
      (lt_of_le_of_ne hhi hover.2.symm) hdvd hdvd'
    obtain ⟨p, hp⟩ := h.splitSeg hc
    exact ⟨_, _, _, _, _, p, hp.1, hc, hp.2⟩
  next hover =>
  split
  · next hleft =>
    have hstop : sm.hi ss = stop := by
      by_contra hne
      exact hover ⟨hleft, hne⟩
    have hc := h.cut_trim hroot hlo hlt hhi hdvd hdvd'
      (.inl ⟨rfl, lt_of_le_of_ne hlo hleft, hstop⟩)
    obtain ⟨p, hp⟩ := h.ppAdd_trim hc
    exact ⟨_, _, _, _, _, p, hp.1, hc, hp.2⟩
  · next hleft =>
    have hstart : sm.lo ss = start := not_not.1 hleft
    split
    · next hright =>
      have hc := h.cut_trim hroot hlo hlt hhi hdvd hdvd'
        (.inr ⟨rfl, hstart, lt_of_le_of_ne hhi (Ne.symm hright)⟩)
      obtain ⟨p, hp⟩ := h.ppAdd_trim hc
      exact ⟨_, _, _, _, _, p, hp.1, hc, hp.2⟩
    · next hright =>
      have hc := cut_drop hroot hstart (not_not.1 hright)
      refine ⟨l1, [], l2, sm.smSeg, sm.smNext, (sm.ppRemove ss).smPpRoot, ?_, hc,
        by simp [ppRemove], fun pp hp => h.ppRemove_ok hc hp⟩
      simp [cutTo, ppRemove, hroot, avlRemove_middle (h.notMem hroot).1]

end Cut

theorem Inv.remove (h : sm.Inv) {zfsRecover : Bool} (hw : start + size < 2 ^ 64)
    (hr : spaceMapRemove zfsRecover sm start size = some sm') :
    sm.Becomes sm' (sm.denote \ Set.Ico start (start + size)) := by
  simp only [spaceMapRemove, verify_bind_eq_some, uadd_of_lt hw, p2phase_eq_zero] at hr
  obtain ⟨hsize, hdvd, hdvd', hr⟩ := hr
  have hlt : start < start + size := by omega
  unfold spaceMapRemoveChecked at hr
  split at hr
  · next hf =>
    -- nothing of the range is in the map, and `zfs_recover` is set
    have hd : Disjoint (Set.Ico start (start + size)) sm.denote := by
      by_contra hd
      obtain ⟨ss, hss⟩ := h.findSeg_of_not_disjoint hlt hd
      rw [hf] at hss
      cases hss
    unfold zfsPanicRecover at hr
    split at hr
    · cases hr
      exact ⟨h, hd.symm.sdiff_eq_left.symm, Frame.refl sm⟩
    · cases hr
  · next ss hf =>
    simp only [verify_bind_eq_some] at hr
    obtain ⟨hlo, hhi, _, hr⟩ := hr
    have hmem := (h.findSeg_some hlt hf).1
    obtain ⟨l1, parts, l2, seg', n, p, hat, hc, hpsome, hpok⟩ :=
      h.removeAt hmem hlo hlt hhi hdvd (Nat.dvd_add hdvd hdvd')
    rw [hat] at hr
    have hle : size ≤ sm.smSpace := by
      have := hc.len
      have := h.len_le_space hmem
      omega
    have hsp : sm.smSpace - size + (start + size - start) = sm.smSpace := by omega
    have hb := h.cut hc hsp hpsome hpok
    rw [← usub_of_le hle h.space_lt] at hb
    cases hr
    exact hb

theorem Inv.remove_of_subset (h : sm.Inv) (zfsRecover : Bool) (hsize : size ≠ 0)
    (hdvd : 2 ^ sm.smShift ∣ start) (hdvd' : 2 ^ sm.smShift ∣ size)
    (hs : Set.Ico start (start + size) ⊆ sm.denote) :
    ∃ sm', spaceMapRemove zfsRecover sm start size = some sm' ∧
      sm.Becomes sm' (sm.denote \ Set.Ico start (start + size)) := by
  have hlt : start < start + size := by omega
  obtain ⟨ss, hf, hmem, hlo, hhi⟩ := h.findSeg_of_subset hlt hs
  have hw : start + size < 2 ^ 64 := lt_of_le_of_lt hhi (h.fits ss hmem).stop_lt
  obtain ⟨l1, parts, l2, seg', n, p, hat, hc, hpsome, hpok⟩ :=
    h.removeAt hmem hlo hlt hhi hdvd (Nat.dvd_add hdvd hdvd')
  have hle : size ≤ sm.smSpace := by
    have := hc.len
    have := h.len_le_space hmem
    omega
  have hsp : sm.smSpace - size + (start + size - start) = sm.smSpace := by omega
  have hverify : usub sm.smSpace size ≤ sm.smSize := by
    rw [usub_of_le hle h.space_lt]
    exact (Nat.sub_le _ _).trans h.space_le
  refine ⟨_, ?_, h.cut hc hsp hpsome hpok⟩
  rw [← usub_of_le hle h.space_lt]
  simp only [spaceMapRemove, spaceMapRemoveChecked, verify_bind_eq_some, uadd_of_lt hw,
    p2phase_eq_zero, hf, hat]
  exact ⟨hsize, hdvd, hdvd', hlo, hhi, hverify, rfl⟩

end SpaceMap

end Osol.Zfs
