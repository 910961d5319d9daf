import Osol.Lib.Ranges
import Osol.Zfs.SpaceMap.Basic

/-!
# The invariant of a space map

`Inv` is what every space map satisfies between calls: the segment tree lists
separated, aligned segments inside the map, `sm_space` is their total size, and the
picker tree, if there is one, holds the same segments by size and start. `denote`
is the set of offsets in the map.

Both `space_map_add` and `space_map_remove` replace a few neighbouring segments by
others, so `Inv` is re-established once, in `Inv.splice`.
-/

namespace Osol.Zfs

open Osol.Lib Osol.Avl Set List

namespace SpaceSeg

/-- Length of a segment. -/
def len (ss : SpaceSeg) : ℕ := ss.ssEnd - ss.ssStart

/-- The order of the picker tree: by length, then by start. -/
def Before (a b : SpaceSeg) : Prop := a.len < b.len ∨ a.len = b.len ∧ a.ssStart < b.ssStart

theorem Before.trans {a b c : SpaceSeg} (h : a.Before b) (h' : b.Before c) : a.Before c := by
  unfold Before at *
  omega

end SpaceSeg

namespace SpaceMap

variable {sm sm' : SpaceMap}

/-- Bounds of the segment at an address. -/
def lo (sm : SpaceMap) (i : ℕ) : ℕ := (sm.smSeg i).ssStart
def hi (sm : SpaceMap) (i : ℕ) : ℕ := (sm.smSeg i).ssEnd

def denote (sm : SpaceMap) : Set ℕ := cover sm.lo sm.hi sm.smRoot

/-- A segment that may be in the map: aligned and inside. -/
structure Fits (sm : SpaceMap) (ss : SpaceSeg) : Prop where
  start_dvd : 2 ^ sm.smShift ∣ ss.ssStart
  stop_dvd : 2 ^ sm.smShift ∣ ss.ssEnd
  start_le : sm.smStart ≤ ss.ssStart
  stop_le : ss.ssEnd ≤ sm.smStart + sm.smSize
  stop_lt : ss.ssEnd < 2 ^ 64

/-- The picker tree holds the segments of `root`, by length and start. -/
structure PpOk (seg : ℕ → SpaceSeg) (root pp : List ℕ) : Prop where
  perm : pp.Perm root
  sorted : pp.Pairwise fun i j => (seg i).Before (seg j)

structure Inv (sm : SpaceMap) : Prop where
  fresh : ∀ i ∈ sm.smRoot, i < sm.smNext
  sep : Separated sm.lo sm.hi sm.smRoot
  fits : ∀ i ∈ sm.smRoot, sm.Fits (sm.smSeg i)
  space : sm.smSpace = (sm.smRoot.map fun i => (sm.smSeg i).len).sum
  pp : ∀ pp, sm.smPpRoot = some pp → PpOk sm.smSeg sm.smRoot pp

/-- What no call changes: the geometry of the map, its flags, and whether it has a
picker tree. -/
structure Frame (sm sm' : SpaceMap) : Prop where
  start : sm'.smStart = sm.smStart
  size : sm'.smSize = sm.smSize
  shift : sm'.smShift = sm.smShift
  loaded : sm'.smLoaded = sm.smLoaded
  loading : sm'.smLoading = sm.smLoading
  pp : sm'.smPpRoot.isSome = sm.smPpRoot.isSome

theorem Frame.refl (sm : SpaceMap) : Frame sm sm := ⟨rfl, rfl, rfl, rfl, rfl, rfl⟩

theorem Frame.trans {sm'' : SpaceMap} (h : Frame sm sm') (h' : Frame sm' sm'') : Frame sm sm'' :=
  ⟨h'.start.trans h.start, h'.size.trans h.size, h'.shift.trans h.shift,
    h'.loaded.trans h.loaded, h'.loading.trans h.loading, h'.pp.trans h.pp⟩

theorem Frame.fits (h : Frame sm sm') {ss : SpaceSeg} (hf : sm.Fits ss) : sm'.Fits ss :=
  ⟨h.shift ▸ hf.start_dvd, h.shift ▸ hf.stop_dvd, h.start ▸ hf.start_le,
    by rw [h.start, h.size]; exact hf.stop_le, hf.stop_lt⟩

structure Becomes (sm sm' : SpaceMap) (s : Set ℕ) : Prop where
  inv : sm'.Inv
  denote : sm'.denote = s
  frame : Frame sm sm'

theorem create_inv (start size shift : ℕ) : (spaceMapCreate start size shift).Inv where
  fresh := by simp [spaceMapCreate]
  sep := by simp [spaceMapCreate]
  fits := by simp [spaceMapCreate]
  space := by simp [spaceMapCreate]
  pp := by simp [spaceMapCreate]

@[simp] theorem create_denote (start size shift : ℕ) : (spaceMapCreate start size shift).denote = ∅ := by
  simp [denote, spaceMapCreate]

/-! ## The denoted set -/

theorem Inv.nodup (h : sm.Inv) : sm.smRoot.Nodup := by
  refine Pairwise.imp_of_mem (fun {i j} hi _ hij heq => ?_) h.sep.order
  subst heq
  exact absurd (h.sep.pos i hi) (not_lt.2 hij.le)

theorem Inv.space_eq_ncard (h : sm.Inv) : sm.smSpace = sm.denote.ncard := by
  rw [denote, h.sep.apart.ncard_cover, h.space]
  rfl

theorem denote_congr (hroot : sm'.smRoot = sm.smRoot) (hseg : sm'.smSeg = sm.smSeg) :
    sm'.denote = sm.denote := by
  have hlo : sm'.lo = sm.lo := by funext i; rw [lo, lo, hseg]
  have hhi : sm'.hi = sm.hi := by funext i; rw [SpaceMap.hi, SpaceMap.hi, hseg]
  rw [denote, denote, hroot, hlo, hhi]

theorem denote_finite (sm : SpaceMap) : sm.denote.Finite := finite_cover _ _ _

theorem Inv.denote_inside (h : sm.Inv) : sm.denote ⊆ Set.Ico sm.smStart (sm.smStart + sm.smSize) := by
  rintro x ⟨i, hi, h1, h2⟩
  have hf := h.fits i hi
  exact ⟨hf.start_le.trans h1, lt_of_lt_of_le h2 hf.stop_le⟩

theorem Inv.denote_lt (h : sm.Inv) : sm.denote ⊆ Set.Ico 0 (2 ^ 64 - 1) := by
  rintro x ⟨i, hi, h1, h2⟩
  have hf := (h.fits i hi).stop_lt
  have h3 : x < (sm.smSeg i).ssEnd := h2
  exact ⟨Nat.zero_le _, by omega⟩

theorem Inv.space_le (h : sm.Inv) : sm.smSpace ≤ sm.smSize := by
  rw [h.space_eq_ncard]
  calc sm.denote.ncard ≤ (Set.Ico sm.smStart (sm.smStart + sm.smSize)).ncard :=
        ncard_le_ncard h.denote_inside (finite_Ico _ _)
    _ = sm.smSize := by rw [ncard_Ico]; omega

theorem Inv.space_lt (h : sm.Inv) : sm.smSpace < 2 ^ 64 := by
  have := ncard_le_ncard h.denote_lt (finite_Ico _ _)
  rw [← h.space_eq_ncard, ncard_Ico] at this
  omega

theorem Inv.len_le_space (h : sm.Inv) {i : ℕ} (hi : i ∈ sm.smRoot) : (sm.smSeg i).len ≤ sm.smSpace := by
  rw [h.space]
  exact le_sum_of_mem (mem_map_of_mem hi)

/-! ## The picker tree -/

variable {l1 l2 : List ℕ}

section Picker

variable {seg seg' : ℕ → SpaceSeg} {root root' pp : List ℕ} {a : ℕ}

theorem metaslabSegsizeCompare_lt {s t : SpaceSeg} (hs : s.ssStart ≤ s.ssEnd)
    (ht : t.ssStart ≤ t.ssEnd) (hs' : s.ssEnd < 2 ^ 64) (ht' : t.ssEnd < 2 ^ 64)
    (h : s.Before t) : metaslabSegsizeCompare s t = .lt ∧ metaslabSegsizeCompare t s = .gt := by
  unfold SpaceSeg.Before SpaceSeg.len at h
  simp only [metaslabSegsizeCompare, usub_of_le hs hs', usub_of_le ht ht']
  constructor
  · rcases h with h | ⟨h, h'⟩
    · simp [h]
    · simp [h, h']
  · rcases h with h | ⟨h, h'⟩
    · rw [if_neg (by omega), if_pos h]
    · rw [if_neg (by omega), if_neg (by omega), if_neg (by omega), if_pos h']

theorem PpOk.congr (h : PpOk seg root pp) (hs : ∀ i ∈ root, seg' i = seg i) : PpOk seg' root pp := by
  refine ⟨h.perm, h.sorted.imp_of_mem fun {i j} hi hj hij => ?_⟩
  rwa [hs i (h.perm.mem_iff.1 hi), hs j (h.perm.mem_iff.1 hj)]

theorem PpOk.of_perm (h : PpOk seg root pp) (hr : root.Perm root') : PpOk seg root' pp :=
  ⟨h.perm.trans hr, h.sorted⟩

theorem PpOk.remove (h : PpOk seg (a :: root) pp) : PpOk seg root (avlRemove pp a) := by
  refine ⟨?_, h.sorted.sublist erase_sublist⟩
  have := h.perm.erase a
  simpa [avlRemove] using this

theorem PpOk.add (h : PpOk seg root pp) (hne : ∀ i ∈ root, (seg i).ssStart ≠ (seg a).ssStart)
    (hle : ∀ i ∈ a :: root, (seg i).ssStart ≤ (seg i).ssEnd ∧ (seg i).ssEnd < 2 ^ 64) :
    ∃ pp', avlAdd (fun i j => metaslabSegsizeCompare (seg i) (seg j)) pp a = some pp' ∧
    PpOk seg (a :: root) pp' := by
  have hroot : ∀ i ∈ pp, i ∈ root := fun i hi => h.perm.mem_iff.1 hi
  have ha := hle a (by simp)
  have hcmp : ∀ i ∈ pp, ∀ {s t}, (s = i ∧ t = a ∨ s = a ∧ t = i) → (seg s).Before (seg t) →
      metaslabSegsizeCompare (seg s) (seg t) = .lt ∧ metaslabSegsizeCompare (seg t) (seg s) = .gt := by
    intro i hi s t hst hb
    have hi' := hle i (by simp [hroot i hi])
    rcases hst with ⟨rfl, rfl⟩ | ⟨rfl, rfl⟩
    · exact metaslabSegsizeCompare_lt hi'.1 ha.1 hi'.2 ha.2 hb
    · exact metaslabSegsizeCompare_lt ha.1 hi'.1 ha.2 hi'.2 hb
  obtain ⟨pp', hadd, hperm, hsort⟩ := avlAdd_sorted
    (fun i j => metaslabSegsizeCompare (seg i) (seg j)) (fun i j => (seg i).Before (seg j)) a
    (fun i hi hb => (hcmp i hi (.inr ⟨rfl, rfl⟩) hb).1)
    (fun i hi hb => (hcmp i hi (.inl ⟨rfl, rfl⟩) hb).2)
    (fun i hi => by
      have := hne i (hroot i hi)
      unfold SpaceSeg.Before
      omega)
    (fun _ _ _ _ h1 h2 => h1.trans h2) h.sorted
  exact ⟨pp', hadd, hperm.trans (h.perm.cons a), hsort⟩

theorem ppAdd_spec (hsep : Separated sm.lo sm.hi (l1 ++ a :: l2))
    (hlt : ∀ i ∈ l1 ++ a :: l2, sm.hi i < 2 ^ 64)
    (hpp : ∀ pp, sm.smPpRoot = some pp → PpOk sm.smSeg (l1 ++ l2) pp) :
    ∃ p, sm.ppAdd a = some { sm with smPpRoot := p } ∧ p.isSome = sm.smPpRoot.isSome ∧
      ∀ pp, p = some pp → PpOk sm.smSeg (l1 ++ a :: l2) pp := by
  unfold ppAdd
  cases hp : sm.smPpRoot with
  | none =>
    have hsm : { sm with smPpRoot := none } = sm := by cases sm; cases hp; rfl
    exact ⟨none, by rw [hsm], rfl, by simp⟩
  | some pp =>
    obtain ⟨pp', hadd, hok⟩ := (hpp pp hp).add (fun i hi => hsep.lo_ne hi) fun i hi => by
      have hi' : i ∈ l1 ++ a :: l2 := perm_middle.mem_iff.2 hi
      exact ⟨(hsep.pos i hi').le, hlt i hi'⟩
    refine ⟨some pp', by simp [hadd], rfl, fun q hq => ?_⟩
    cases hq
    exact hok.of_perm perm_middle.symm

end Picker

/-! ## Replacing neighbouring segments -/

theorem Inv.splice (h : sm.Inv) (hf : Frame sm sm') {mid mid' : List ℕ}
    (hroot : sm.smRoot = l1 ++ (mid ++ l2)) (hroot' : sm'.smRoot = l1 ++ (mid' ++ l2))
    (hseg : ∀ i ∈ l1 ++ l2, sm'.smSeg i = sm.smSeg i) (hnext : sm.smNext ≤ sm'.smNext)
    (hfresh : ∀ i ∈ mid', i < sm'.smNext) (hsep : Separated sm'.lo sm'.hi (l1 ++ (mid' ++ l2)))
    (hfits : ∀ i ∈ mid', sm.Fits (sm'.smSeg i))
    (hspace : sm'.smSpace + (mid.map fun i => (sm.smSeg i).len).sum =
      sm.smSpace + (mid'.map fun i => (sm'.smSeg i).len).sum)
    (hpp : ∀ pp, sm'.smPpRoot = some pp → PpOk sm'.smSeg (l1 ++ (mid' ++ l2)) pp) : sm'.Inv := by
  have hmem : ∀ i ∈ sm'.smRoot, i ∈ mid' ∨ i ∈ l1 ++ l2 := fun i hi => by
    simp only [hroot', mem_append] at hi ⊢
    tauto
  have hold : ∀ i ∈ l1 ++ l2, i ∈ sm.smRoot := fun i hi => by
    simp only [hroot, mem_append] at hi ⊢
    tauto
  refine ⟨fun i hi => ?_, by rw [hroot']; exact hsep, fun i hi => ?_, ?_, by rw [hroot']; exact hpp⟩
  · rcases hmem i hi with hi | hi
    · exact hfresh i hi
    · exact lt_of_lt_of_le (h.fresh i (hold i hi)) hnext
  · refine hf.fits ?_
    rcases hmem i hi with hi | hi
    · exact hfits i hi
    · rw [hseg i hi]; exact h.fits i (hold i hi)
  have hsum : ∀ l : List ℕ, (∀ i ∈ l, sm'.smSeg i = sm.smSeg i) →
      (l.map fun i => (sm'.smSeg i).len).sum = (l.map fun i => (sm.smSeg i).len).sum := by
    intro l hl
    rw [map_congr_left fun i hi => by rw [hl i hi]]
  have hspace0 := h.space
  rw [hroot] at hspace0
  rw [hroot']
  simp only [map_append, sum_append] at hspace0 ⊢
  rw [hsum l1 fun i hi => hseg i (by simp [hi]), hsum l2 fun i hi => hseg i (by simp [hi])]
  omega

theorem denote_splice {mid mid' : List ℕ} (hroot : sm.smRoot = l1 ++ (mid ++ l2))
    (hroot' : sm'.smRoot = l1 ++ (mid' ++ l2)) (hseg : ∀ i ∈ l1 ++ l2, sm'.smSeg i = sm.smSeg i) :
    sm.denote = cover sm.lo sm.hi (l1 ++ l2) ∪ cover sm.lo sm.hi mid ∧
      sm'.denote = cover sm.lo sm.hi (l1 ++ l2) ∪ cover sm'.lo sm'.hi mid' := by
  have hcongr : cover sm'.lo sm'.hi (l1 ++ l2) = cover sm.lo sm.hi (l1 ++ l2) :=
    cover_congr (fun i hi => by simp [lo, hseg i hi]) (fun i hi => by simp [SpaceMap.hi, hseg i hi])
  constructor
  · rw [denote, hroot]
    simp only [cover_append]
    ac_rfl
  · rw [← hcongr, denote, hroot']
    simp only [cover_append]
    ac_rfl

end SpaceMap

end Osol.Zfs
