import Osol.Zfs.SpaceMap.Invariant

/-!
# `space_map_contains` and `space_map_add`

A search of the segment tree against the denoted set, and what `space_map_add` does
to a map with the invariant: `Inv.add` for any call that returns, `Inv.add_of_disjoint`
for the calls that do. Later modules use these and never unfold the function.
-/

namespace Osol.Zfs

open Osol.Lib Osol.Avl Set

namespace SpaceMap

variable {sm sm' : SpaceMap} {start stop size : ℕ}

/-! ## Searching the segment tree -/

variable {s t : SpaceSeg}

theorem segCompare_gt (ht : t.ssStart < t.ssEnd)
    (h : t.ssEnd ≤ s.ssStart) : spaceMapSegCompare s t = .gt := by
  unfold spaceMapSegCompare
  rw [if_neg (by omega), if_pos (by omega), if_neg (by omega)]

theorem segCompare_eq_iff (hs : s.ssStart < s.ssEnd) (ht : t.ssStart < t.ssEnd) :
    spaceMapSegCompare s t = .eq ↔ s.ssStart < t.ssEnd ∧ t.ssStart < s.ssEnd := by
  unfold spaceMapSegCompare
  split
  · split <;> simp <;> omega
  · split
    · split <;> simp <;> omega
    · simp; omega

theorem segCompare_lt_iff (hs : s.ssStart < s.ssEnd) :
    spaceMapSegCompare s t = .lt ↔ s.ssEnd ≤ t.ssStart := by
  unfold spaceMapSegCompare
  split
  · split <;> simp <;> omega
  · split
    · split <;> simp <;> omega
    · simp; omega

section

variable (h : sm.Inv) (hlt : start < stop)
include h hlt

theorem Inv.findSeg_of_disjoint (hd : Disjoint (Ico start stop) sm.denote) :
    ∃ l1 l2, sm.smRoot = l1 ++ l2 ∧ (∀ i ∈ l1, sm.hi i ≤ start) ∧ (∀ i ∈ l2, stop ≤ sm.lo i) ∧
      sm.findSeg start stop = (none, l1.length) := by
  obtain ⟨l1, l2, hroot, h1, h2⟩ := h.sep.apart.exists_split hlt hd
  have hpos : ∀ i ∈ l1 ++ l2, (sm.smSeg i).ssStart < (sm.smSeg i).ssEnd :=
    fun i hi => h.sep.pos i (hroot ▸ hi)
  refine ⟨l1, l2, hroot, h1, h2, ?_⟩
  rw [findSeg, hroot]
  exact avlFind_split (fun i hi => segCompare_gt (hpos i (by simp [hi])) (h1 i hi))
    (fun i hi => (segCompare_lt_iff hlt).2 (h2 i hi))

theorem Inv.findSeg_some {ss : ℕ} (hf : (sm.findSeg start stop).1 = some ss) :
    ss ∈ sm.smRoot ∧ start < sm.hi ss ∧ sm.lo ss < stop := by
  obtain ⟨hmem, heq⟩ := mem_of_avlFind hf
  exact ⟨hmem, (segCompare_eq_iff hlt (h.sep.pos ss hmem)).1 heq⟩

theorem Inv.findSeg_of_not_disjoint (hd : ¬ Disjoint (Ico start stop) sm.denote) :
    ∃ ss, (sm.findSeg start stop).1 = some ss := by
  obtain ⟨x, hx, i, hi, h1, h2⟩ := not_disjoint_iff.1 hd
  refine avlFind_isSome ?_ ⟨i, hi, ?_⟩
  · refine h.sep.order.imp_of_mem fun {i j} hi hj hij hlt' => ?_
    rw [segCompare_lt_iff hlt] at hlt' ⊢
    exact hlt'.trans ((h.sep.pos i hi).le.trans hij.le)
  · rw [segCompare_eq_iff hlt (h.sep.pos i hi)]
    exact ⟨lt_of_le_of_lt hx.1 h2, lt_of_le_of_lt h1 hx.2⟩

theorem Inv.findSeg_of_subset (hs : Ico start stop ⊆ sm.denote) :
    ∃ ss, (sm.findSeg start stop).1 = some ss ∧ ss ∈ sm.smRoot ∧ sm.lo ss ≤ start ∧ stop ≤ sm.hi ss := by
  have hstart : start ∈ Ico start stop := ⟨le_rfl, hlt⟩
  obtain ⟨ss, hf⟩ := h.findSeg_of_not_disjoint hlt (not_disjoint_iff.2 ⟨start, hstart, hs hstart⟩)
  obtain ⟨hmem, h1, h2⟩ := h.findSeg_some hlt hf
  obtain ⟨i, hi, hi1, hi2⟩ := h.sep.exists_mem hlt hs
  have hpos := h.sep.pos ss hmem
  -- the found segment and the one that holds the range share the larger start
  have hss : ss = i := h.sep.apart.eq_of_mem hmem hi
    (le_max_right _ _) (max_lt h1 hpos) (hi1.trans (le_max_left _ _))
    (lt_of_lt_of_le (max_lt hlt h2) hi2)
  exact ⟨ss, hf, hmem, hss ▸ hi1, hss ▸ hi2⟩

end

theorem Inv.contains (h : sm.Inv) (hw : start + size < 2 ^ 64) (hsize : size ≠ 0)
    (h1 : 2 ^ sm.smShift ∣ start) (h2 : 2 ^ sm.smShift ∣ size) :
    ∃ b, spaceMapContains sm start size = some b ∧ (b = true ↔ Ico start (start + size) ⊆ sm.denote) := by
  have hlt : start < start + size := by omega
  unfold spaceMapContains
  rw [uadd_of_lt hw]
  simp only [verify_bind_of hsize, verify_bind_of (p2phase_eq_zero.2 h1),
    verify_bind_of (p2phase_eq_zero.2 h2)]
  cases hf : (sm.findSeg start (start + size)).1 with
  | none =>
    refine ⟨false, rfl, by simp, fun hs => ?_⟩
    obtain ⟨ss, hss, _⟩ := h.findSeg_of_subset hlt hs
    simp [hf] at hss
  | some ss =>
    refine ⟨_, rfl, ?_⟩
    rw [decide_eq_true_iff]
    constructor
    · rintro ⟨hlo, hhi⟩ x hx
      exact ⟨ss, (h.findSeg_some hlt hf).1, hlo.trans hx.1, lt_of_lt_of_le hx.2 hhi⟩
    · intro hs
      obtain ⟨ss', hss', _, hlo, hhi⟩ := h.findSeg_of_subset hlt hs
      rw [hf] at hss'
      cases hss'
      exact ⟨hlo, hhi⟩

/-! ## `space_map_add` -/

/-- The neighbours `mid` that touch the range `[start, stop)` and the range itself
make up the segment `sg`, which goes to the address `ss`. -/
structure Touching (sm : SpaceMap) (start stop : ℕ) (l1 mid l2 : List ℕ) (ss : ℕ)
    (sg : SpaceSeg) : Prop where
  root : sm.smRoot = l1 ++ (mid ++ l2)
  notMem : ss ∉ l1 ++ l2
  left : ∀ i ∈ l1, sm.hi i < sg.ssStart
  right : ∀ i ∈ l2, sg.ssEnd < sm.lo i
  start_le : sg.ssStart ≤ start
  stop_le : stop ≤ sg.ssEnd
  fits : sm.Fits sg
  union : Ico sg.ssStart sg.ssEnd = cover sm.lo sm.hi mid ∪ Ico start stop
  len : sg.len = (mid.map fun i => (sm.smSeg i).len).sum + (stop - start)

/-- The map with `mid` replaced by the segment `sg` at `ss`, not yet in the picker tree. -/
def fuse (sm : SpaceMap) (l1 mid l2 : List ℕ) (ss : ℕ) (sg : SpaceSeg) : SpaceMap :=
  { sm with
    smRoot := l1 ++ ss :: l2
    smPpRoot := sm.smPpRoot.map fun pp => mid.foldl avlRemove pp
    smSeg := Function.update sm.smSeg ss sg
    smNext := max sm.smNext (ss + 1) }

theorem mergeBefore_cases {l1 : List ℕ} (l2 : List ℕ) (hs : Separated sm.lo sm.hi l1)
    (h1 : ∀ i ∈ l1, sm.hi i ≤ start) :
    (∃ l b, l1 = l ++ [b] ∧ sm.hi b = start ∧ (avlNearest (l1 ++ l2) l1.length .before).filter
        (fun b => decide ((sm.smSeg b).ssEnd = start)) = some b) ∨
    ((avlNearest (l1 ++ l2) l1.length .before).filter
        (fun b => decide ((sm.smSeg b).ssEnd = start)) = none ∧ ∀ i ∈ l1, sm.hi i < start) := by
  rw [avlNearest_before]
  rcases List.eq_nil_or_concat l1 with rfl | ⟨l, b, rfl⟩
  · exact .inr (by simp)
  rw [List.concat_eq_append] at hs h1 ⊢
  obtain ⟨_, hb, hlb⟩ := separated_append.1 hs
  have hpos := hb.pos b (by simp)
  by_cases hbe : sm.hi b = start
  · exact .inl ⟨l, b, rfl, hbe, by simpa [SpaceMap.hi] using hbe⟩
  refine .inr ⟨by simpa [SpaceMap.hi] using hbe, fun i hi => ?_⟩
  have hle := h1 b (by simp)
  rcases List.mem_append.1 hi with hi | hi
  · have := hlb i hi b (by simp)
    omega
  · cases List.mem_singleton.1 hi
    omega

theorem mergeAfter_cases (l1 : List ℕ) {l2 : List ℕ} (hs : Separated sm.lo sm.hi l2)
    (h2 : ∀ i ∈ l2, stop ≤ sm.lo i) :
    (∃ a l, l2 = a :: l ∧ sm.lo a = stop ∧ (avlNearest (l1 ++ l2) l1.length .after).filter
        (fun a => decide ((sm.smSeg a).ssStart = stop)) = some a) ∨
    ((avlNearest (l1 ++ l2) l1.length .after).filter
        (fun a => decide ((sm.smSeg a).ssStart = stop)) = none ∧ ∀ i ∈ l2, stop < sm.lo i) := by
  rw [avlNearest_after]
  cases l2 with
  | nil => exact .inr (by simp)
  | cons a l =>
    obtain ⟨hpos, _, hal⟩ := separated_cons.1 hs
    by_cases hae : sm.lo a = stop
    · exact .inl ⟨a, l, rfl, hae, by simpa [lo] using hae⟩
    refine .inr ⟨by simpa [lo] using hae, fun i hi => ?_⟩
    have hle := h2 a (by simp)
    rcases List.mem_cons.1 hi with rfl | hi
    · omega
    · have := hal i hi
      omega

section Branches

variable {l1 l2 : List ℕ} {a b : ℕ}

theorem Inv.notMem (h : sm.Inv) (hroot : sm.smRoot = l1 ++ a :: l2) : a ∉ l1 ∧ a ∉ l2 := by
  have hnd := h.nodup
  rw [hroot, List.nodup_append, List.nodup_cons] at hnd
  exact ⟨fun hm => hnd.2.2 a hm a (by simp) rfl, hnd.2.1.1⟩

theorem seg_len (i : ℕ) : (sm.smSeg i).len = sm.hi i - sm.lo i := rfl

theorem Inv.mergeBoth (h : sm.Inv) (hroot : sm.smRoot = l1 ++ b :: a :: l2)
    (hb : sm.hi b = start) (ha : sm.lo a = stop) (hlt : start < stop) :
    mergeBoth sm b a = sm.fuse l1 [b, a] l2 a ⟨sm.lo b, sm.hi a⟩ ∧
      sm.Touching start stop l1 [b, a] l2 a ⟨sm.lo b, sm.hi a⟩ := by
  have hsep := h.sep
  rw [hroot] at hsep
  obtain ⟨_, hs2, hs12⟩ := separated_append.1 hsep
  obtain ⟨hbpos, hs2, _⟩ := separated_cons.1 hs2
  obtain ⟨hapos, _, hal⟩ := separated_cons.1 hs2
  have hbf := h.fits b (by simp [hroot])
  have haf := h.fits a (by simp [hroot])
  have hnext : max sm.smNext (a + 1) = sm.smNext := max_eq_left (h.fresh a (by simp [hroot]))
  have hm : a ∉ l1 ++ [b] ∧ a ∉ l2 := h.notMem (by simpa using hroot)
  refine ⟨?_, by simpa using hroot, ?_, fun i hi => hs12 i hi b (by simp), hal, by dsimp; omega,
    by dsimp; omega, ⟨hbf.start_dvd, haf.stop_dvd, hbf.start_le, haf.stop_le, haf.stop_lt⟩, ?_, ?_⟩
  · simp [Zfs.mergeBoth, fuse, ppRemove, setSeg, hroot, avlRemove_middle (h.notMem hroot).1, hnext,
      lo, SpaceMap.hi, Function.comp_def]
  · simp only [List.mem_append, List.mem_singleton] at hm ⊢
    tauto
  · ext x
    simp only [mem_Ico, mem_union, cover_cons, cover_nil, mem_empty_iff_false, or_false]
    omega
  · simp only [List.map_cons, List.map_nil, List.sum_cons, List.sum_nil, seg_len]
    simp only [SpaceSeg.len]
    omega

theorem Inv.mergeBefore (h : sm.Inv) (hroot : sm.smRoot = l1 ++ b :: l2)
    (hb : sm.hi b = start) (ha : ∀ i ∈ l2, stop < sm.lo i) (hlt : start < stop)
    (hfit : sm.Fits ⟨start, stop⟩) :
    mergeBefore sm b stop = sm.fuse l1 [b] l2 b ⟨sm.lo b, stop⟩ ∧
      sm.Touching start stop l1 [b] l2 b ⟨sm.lo b, stop⟩ := by
  have hsep := h.sep
  rw [hroot] at hsep
  obtain ⟨_, hs2, hs12⟩ := separated_append.1 hsep
  have hbpos := hs2.pos b (by simp)
  have hbf := h.fits b (by simp [hroot])
  have hnext : max sm.smNext (b + 1) = sm.smNext := max_eq_left (h.fresh b (by simp [hroot]))
  have hm := h.notMem hroot
  refine ⟨?_, by simpa using hroot, by simpa using hm, fun i hi => hs12 i hi b (by simp), ha,
    by dsimp; omega, le_rfl,
    ⟨hbf.start_dvd, hfit.stop_dvd, hbf.start_le, hfit.stop_le, hfit.stop_lt⟩, ?_, ?_⟩
  · simp [Zfs.mergeBefore, fuse, ppRemove, setSeg, hroot, hnext, lo]
  · ext x
    simp only [mem_Ico, mem_union, cover_cons, cover_nil, mem_empty_iff_false, or_false]
    omega
  · simp only [List.map_cons, List.map_nil, List.sum_cons, List.sum_nil, seg_len]
    simp only [SpaceSeg.len]
    omega

theorem Inv.mergeAfter (h : sm.Inv) (hroot : sm.smRoot = l1 ++ a :: l2)
    (hb : ∀ i ∈ l1, sm.hi i < start) (ha : sm.lo a = stop) (hlt : start < stop)
    (hfit : sm.Fits ⟨start, stop⟩) :
    mergeAfter sm a start = sm.fuse l1 [a] l2 a ⟨start, sm.hi a⟩ ∧
      sm.Touching start stop l1 [a] l2 a ⟨start, sm.hi a⟩ := by
  have hsep := h.sep
  rw [hroot] at hsep
  obtain ⟨_, hs2, _⟩ := separated_append.1 hsep
  obtain ⟨hapos, _, hal⟩ := separated_cons.1 hs2
  have haf := h.fits a (by simp [hroot])
  have hnext : max sm.smNext (a + 1) = sm.smNext := max_eq_left (h.fresh a (by simp [hroot]))
  have hm := h.notMem hroot
  refine ⟨?_, by simpa using hroot, by simpa using hm, hb, hal, le_rfl, by dsimp; omega,
    ⟨hfit.start_dvd, haf.stop_dvd, hfit.start_le, haf.stop_le, haf.stop_lt⟩, ?_, ?_⟩
  · simp [Zfs.mergeAfter, fuse, ppRemove, setSeg, hroot, hnext, SpaceMap.hi]
  · ext x
    simp only [mem_Ico, mem_union, cover_cons, cover_nil, mem_empty_iff_false, or_false]
    omega
  · simp only [List.map_cons, List.map_nil, List.sum_cons, List.sum_nil, seg_len]
    simp only [SpaceSeg.len]
    omega

theorem Inv.insertNew (h : sm.Inv) (hroot : sm.smRoot = l1 ++ l2)
    (hb : ∀ i ∈ l1, sm.hi i < start) (ha : ∀ i ∈ l2, stop < sm.lo i)
    (hfit : sm.Fits ⟨start, stop⟩) :
    insertNew sm l1.length start stop = sm.fuse l1 [] l2 sm.smNext ⟨start, stop⟩ ∧
      sm.Touching start stop l1 [] l2 sm.smNext ⟨start, stop⟩ := by
  refine ⟨?_, by simpa using hroot, fun hm => ?_, hb, ha, le_rfl, le_rfl, hfit, by simp,
    by simp [SpaceSeg.len]⟩
  · simp [Zfs.insertNew, fuse, setSeg, hroot, avlInsert_split]
  · exact absurd (h.fresh _ (hroot ▸ hm)) (lt_irrefl _)

end Branches

/-- Whichever branch is taken, `space_map_add` fuses the range with the neighbours
that touch it. -/
theorem Inv.addAt (h : sm.Inv) {l1 l2 : List ℕ} (hroot : sm.smRoot = l1 ++ l2)
    (hlt : start < stop) (h1 : ∀ i ∈ l1, sm.hi i ≤ start) (h2 : ∀ i ∈ l2, stop ≤ sm.lo i)
    (hfit : sm.Fits ⟨start, stop⟩) :
    ∃ k1 mid k2 ss sg, spaceMapAddAt sm l1.length start stop = (sm.fuse k1 mid k2 ss sg, ss) ∧
      sm.Touching start stop k1 mid k2 ss sg := by
  have hsep := h.sep
  rw [hroot] at hsep
  obtain ⟨hs1, hs2, _⟩ := separated_append.1 hsep
  simp only [spaceMapAddAt, hroot]
  rcases mergeBefore_cases l2 hs1 h1 with ⟨k1, b, rfl, hb, eb⟩ | ⟨eb, hb⟩
  · rcases mergeAfter_cases (k1 ++ [b]) hs2 h2 with ⟨a, k2, rfl, ha, ea⟩ | ⟨ea, ha⟩
    · obtain ⟨heq, ht⟩ := h.mergeBoth (by simpa using hroot) hb ha hlt
      exact ⟨k1, [b, a], k2, a, _, by rw [eb, ea, ← heq], ht⟩
    · obtain ⟨heq, ht⟩ := h.mergeBefore (by simpa using hroot) hb ha hlt hfit
      exact ⟨k1, [b], l2, b, _, by rw [eb, ea, ← heq], ht⟩
  · rcases mergeAfter_cases l1 hs2 h2 with ⟨a, k2, rfl, ha, ea⟩ | ⟨ea, ha⟩
    · obtain ⟨heq, ht⟩ := h.mergeAfter hroot hb ha hlt hfit
      exact ⟨l1, [a], k2, a, _, by rw [eb, ea, ← heq], ht⟩
    · obtain ⟨heq, ht⟩ := h.insertNew hroot hb ha hfit
      exact ⟨l1, [], l2, sm.smNext, _, by rw [eb, ea, ← heq], ht⟩

theorem PpOk.removeAll {seg : ℕ → SpaceSeg} {mid root pp : List ℕ}
    (h : PpOk seg (mid ++ root) pp) : PpOk seg root (mid.foldl avlRemove pp) := by
  induction mid generalizing pp with
  | nil => exact h
  | cons i mid ih => exact ih h.remove

section

variable (h : sm.Inv)
include h

theorem Inv.fuse (hlt : start < stop) {l1 mid l2 : List ℕ} {ss : ℕ} {sg : SpaceSeg}
    (ht : sm.Touching start stop l1 mid l2 ss sg) (hsz : size = stop - start)
    (hsp : sm.smSpace + size < 2 ^ 64) :
    ∃ sm', ((sm.fuse l1 mid l2 ss sg).ppAdd ss >>= fun sm' =>
        some { sm' with smSpace := uadd sm'.smSpace size }) = some sm' ∧
      sm.Becomes sm' (sm.denote ∪ Ico start stop) := by
  have hseg : ∀ i ∈ l1 ++ l2, (sm.fuse l1 mid l2 ss sg).smSeg i = sm.smSeg i := fun i hi => by
    have hne : i ≠ ss := fun he => ht.notMem (he ▸ hi)
    simp [SpaceMap.fuse, hne]
  have hss : (sm.fuse l1 mid l2 ss sg).smSeg ss = sg := by simp [SpaceMap.fuse]
  have hpos : (sm.fuse l1 mid l2 ss sg).lo ss < (sm.fuse l1 mid l2 ss sg).hi ss := by
    simp only [lo, SpaceMap.hi, hss]
    exact lt_of_le_of_lt ht.start_le (lt_of_lt_of_le hlt ht.stop_le)
  have hsep : Separated (sm.fuse l1 mid l2 ss sg).lo (sm.fuse l1 mid l2 ss sg).hi
      (l1 ++ ([ss] ++ l2)) := by
    refine (ht.root ▸ h.sep).splice (separated_cons.2 ⟨hpos, separated_nil, by simp⟩)
      (fun i hi => by rw [lo, lo, hseg i hi])
      (fun i hi => by rw [SpaceMap.hi, SpaceMap.hi, hseg i hi]) ?_ ?_
    · simpa [lo, hss] using ht.left
    · simpa [SpaceMap.hi, hss] using ht.right
  have hstop : ∀ i ∈ l1 ++ ss :: l2, (sm.fuse l1 mid l2 ss sg).hi i < 2 ^ 64 := by
    intro i hi
    rcases List.mem_cons.1 (List.perm_middle.mem_iff.1 hi) with rfl | hi
    · simpa [SpaceMap.hi, hss] using ht.fits.stop_lt
    · rw [SpaceMap.hi, hseg i hi]
      refine (h.fits i ?_).stop_lt
      simp only [ht.root, List.mem_append] at hi ⊢
      tauto
  -- the picker tree without the segments that were fused
  have hpp : ∀ pp, (sm.fuse l1 mid l2 ss sg).smPpRoot = some pp →
      PpOk (sm.fuse l1 mid l2 ss sg).smSeg (l1 ++ l2) pp := by
    intro pp hp
    obtain ⟨pp0, hp0, rfl⟩ := Option.map_eq_some_iff.1 hp
    have hperm : sm.smRoot.Perm (mid ++ (l1 ++ l2)) := by
      rw [ht.root, ← List.append_assoc, ← List.append_assoc]
      exact (List.perm_append_comm).append_right l2
    have hok := (h.pp pp0 hp0).of_perm hperm
    exact hok.removeAll.congr hseg
  obtain ⟨p, hadd, hpsome, hpok⟩ := ppAdd_spec hsep hstop hpp
  have hroot' : l1 ++ ss :: l2 = l1 ++ ([ss] ++ l2) := rfl
  have hframe : Frame sm { sm.fuse l1 mid l2 ss sg with
      smPpRoot := p, smSpace := sm.smSpace + size } :=
    ⟨rfl, rfl, rfl, rfl, rfl, by simpa [SpaceMap.fuse] using hpsome⟩
  refine ⟨{ sm.fuse l1 mid l2 ss sg with smPpRoot := p, smSpace := sm.smSpace + size },
    by rw [hadd, ← uadd_of_lt hsp]; rfl,
    h.splice hframe ht.root hroot' hseg (le_max_left _ _) ?_ hsep ?_ ?_ hpok, ?_, hframe⟩
  · simp [SpaceMap.fuse]
  · simpa [SpaceMap.fuse] using ht.fits
  · have := ht.len
    simp [SpaceMap.fuse]
    omega
  obtain ⟨hd, hd'⟩ := denote_splice ht.root hroot' hseg
  have hcover : cover (sm.fuse l1 mid l2 ss sg).lo (sm.fuse l1 mid l2 ss sg).hi [ss] =
    Ico sg.ssStart sg.ssEnd := by
    simp [cover_cons, lo, SpaceMap.hi, hss]
  calc _ = (sm.fuse l1 mid l2 ss sg).denote := denote_congr rfl rfl
    _ = sm.denote ∪ Ico start stop := by rw [hd', hcover, ht.union, hd, union_assoc]

theorem Inv.ncard_union (hd : Disjoint (Ico start (start + size)) sm.denote) :
    (sm.denote ∪ Ico start (start + size)).ncard = sm.smSpace + size := by
  rw [ncard_union_eq hd.symm sm.denote_finite (finite_Ico _ _), ncard_Ico, h.space_eq_ncard]
  omega

theorem Inv.space_add_lt (hw : start + size < 2 ^ 64)
    (hd : Disjoint (Ico start (start + size)) sm.denote) : sm.smSpace + size < 2 ^ 64 := by
  have hsub : sm.denote ∪ Ico start (start + size) ⊆ Ico 0 (2 ^ 64 - 1) := by
    refine union_subset h.denote_lt fun x hx => ⟨Nat.zero_le _, ?_⟩
    have := hx.2
    omega
  have := ncard_le_ncard hsub (finite_Ico _ _)
  rw [h.ncard_union hd, ncard_Ico] at this
  omega

theorem Inv.space_add_le (h1 : sm.smStart ≤ start) (h2 : start + size ≤ sm.smStart + sm.smSize)
    (hd : Disjoint (Ico start (start + size)) sm.denote) : sm.smSpace + size ≤ sm.smSize := by
  have hsub : sm.denote ∪ Ico start (start + size) ⊆
      Ico sm.smStart (sm.smStart + sm.smSize) :=
    union_subset h.denote_inside fun x hx => ⟨h1.trans hx.1, lt_of_lt_of_le hx.2 h2⟩
  have := ncard_le_ncard hsub (finite_Ico _ _)
  rw [h.ncard_union hd, ncard_Ico] at this
  omega

theorem Inv.addChecked_of_disjoint (zfsRecover : Bool) (hsize : size ≠ 0)
    (hfit : sm.Fits ⟨start, start + size⟩)
    (hd : Disjoint (Ico start (start + size)) sm.denote) :
    ∃ sm', spaceMapAddChecked zfsRecover sm start (start + size) size = some sm' ∧
      sm.Becomes sm' (sm.denote ∪ Ico start (start + size)) := by
  have hlt : start < start + size := by omega
  obtain ⟨l1, l2, hroot, h1, h2, hf⟩ := h.findSeg_of_disjoint hlt hd
  obtain ⟨k1, mid, k2, ss, sg, hat, ht⟩ := h.addAt hroot hlt h1 h2 hfit
  obtain ⟨sm', hadd, hb⟩ := h.fuse hlt ht (by omega) (h.space_add_lt hfit.stop_lt hd)
  exact ⟨sm', by simpa only [spaceMapAddChecked, hf, hat] using hadd, hb⟩

theorem Inv.add {zfsRecover : Bool} (hw : start + size < 2 ^ 64)
    (hr : spaceMapAdd zfsRecover sm start size = some sm') :
    sm.Becomes sm' (sm.denote ∪ Ico start (start + size)) := by
  simp only [spaceMapAdd, verify_bind_eq_some, uadd_of_lt hw, p2phase_eq_zero] at hr
  obtain ⟨hsize, hstart, hstop, _, hdvd, hdvd', hr⟩ := hr
  have hlt : start < start + size := by omega
  have hfit : sm.Fits ⟨start, start + size⟩ :=
    ⟨hdvd, Nat.dvd_add hdvd hdvd', hstart, hstop.trans (Nat.mod_le _ _), hw⟩
  by_cases hd : Disjoint (Ico start (start + size)) sm.denote
  · obtain ⟨sm1, hr1, hb⟩ := h.addChecked_of_disjoint zfsRecover hsize hfit hd
    rw [hr] at hr1
    cases hr1
    exact hb
  -- the range meets a segment: `zfs_recover` is set and the segment holds all of it
  obtain ⟨ss, hf⟩ := h.findSeg_of_not_disjoint hlt hd
  have hmem := (h.findSeg_some hlt hf).1
  unfold spaceMapAddChecked at hr
  split at hr
  · next ss' _ hf' =>
    rw [hf'] at hf
    cases hf
    split at hr
    · next hin =>
      unfold zfsPanicRecover at hr
      split at hr
      · cases hr
        refine ⟨h, ?_, Frame.refl sm⟩
        refine (union_eq_left.2 fun x hx => ?_).symm
        exact ⟨ss, hmem, hin.1.trans hx.1, lt_of_lt_of_le hx.2 hin.2⟩
      · cases hr
    · cases hr
  · next hf' => simp [hf'] at hf

theorem Inv.add_of_disjoint (zfsRecover : Bool) (hsize : size ≠ 0)
    (hw : sm.smStart + sm.smSize < 2 ^ 64) (h1 : sm.smStart ≤ start)
    (h2 : start + size ≤ sm.smStart + sm.smSize) (hdvd : 2 ^ sm.smShift ∣ start)
    (hdvd' : 2 ^ sm.smShift ∣ size) (hd : Disjoint (Ico start (start + size)) sm.denote) :
    ∃ sm', spaceMapAdd zfsRecover sm start size = some sm' ∧
      sm.Becomes sm' (sm.denote ∪ Ico start (start + size)) := by
  have hw' : start + size < 2 ^ 64 := lt_of_le_of_lt h2 hw
  have hsp := h.space_add_lt hw' hd
  obtain ⟨sm', hr, hb⟩ := h.addChecked_of_disjoint zfsRecover hsize
    ⟨hdvd, Nat.dvd_add hdvd hdvd', h1, h2, hw'⟩ hd
  refine ⟨sm', ?_, hb⟩
  simp only [spaceMapAdd, verify_bind_eq_some, uadd_of_lt hw', uadd_of_lt hw, uadd_of_lt hsp,
    p2phase_eq_zero]
  exact ⟨hsize, h1, h2, h.space_add_le h1 h2 hd, hdvd, hdvd', hr⟩

end

end SpaceMap

end Osol.Zfs
