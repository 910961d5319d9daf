import Osol.Zfs.SpaceMap.Remove

/-!
# Walking and vacating a map, and its picker tree

`space_map_walk` and `space_map_vacate` hand every segment of one map to a function
on another, in tree order or in the order in which the tree is destroyed. The function
is `space_map_add` or `space_map_remove` (`SegOp`), and what it does to a range of one
segment (`SegOp.becomes`, `SegOp.returns`) it does to all segments.
-/

namespace Osol.Zfs

open Osol.Lib Set List

namespace SpaceMap

variable {sm sm' md md' : SpaceMap}

theorem Becomes.trans {sm'' : SpaceMap} {s t : Set ℕ} (h : sm.Becomes sm' s)
    (h' : sm'.Becomes sm'' t) : sm.Becomes sm'' t :=
  ⟨h'.inv, h'.denote, h.frame.trans h'.frame⟩

theorem Inv.becomes_self (h : sm.Inv) : sm.Becomes sm sm.denote := ⟨h, rfl, Frame.refl sm⟩

end SpaceMap

open SpaceMap

/-- The functions that change a space map by a range. -/
inductive SegOp where
  | add
  | remove
  deriving DecidableEq

namespace SegOp

def call (zfsRecover : Bool) : SegOp → SpaceMap → ℕ → ℕ → Option SpaceMap
  | add => spaceMapAdd zfsRecover
  | remove => spaceMapRemove zfsRecover

def apply : SegOp → Set ℕ → Set ℕ → Set ℕ
  | add, S, A => S ∪ A
  | remove, S, A => S \ A

/-- What the set has to be for the call to make a change in full. -/
def Pre : SegOp → Set ℕ → Set ℕ → Prop
  | add, S, A => Disjoint A S
  | remove, S, A => A ⊆ S

variable {o : SegOp} {S A B : Set ℕ}

@[simp] theorem apply_empty : o.apply S ∅ = S := by
  cases o <;> simp [apply]

theorem apply_union : o.apply (o.apply S A) B = o.apply S (A ∪ B) := by
  cases o with
  | add => exact union_assoc S A B
  | remove => exact sdiff_sdiff

theorem Pre.left (h : o.Pre S (A ∪ B)) : o.Pre S A := by
  cases o with
  | add => exact Disjoint.mono_left subset_union_left h
  | remove => exact subset_union_left.trans h

theorem Pre.right (h : o.Pre S (A ∪ B)) (hAB : Disjoint A B) : o.Pre (o.apply S A) B := by
  cases o with
  | add => exact disjoint_union_right.2 ⟨Disjoint.mono_left subset_union_right h, hAB.symm⟩
  | remove => exact fun x hx => ⟨h (.inr hx), fun hA => disjoint_left.1 hAB hA hx⟩

theorem becomes {md md' : SpaceMap} {zfsRecover : Bool} {start size : ℕ} (h : md.Inv)
    (hw : start + size < 2 ^ 64) (hr : o.call zfsRecover md start size = some md') :
    md.Becomes md' (o.apply md.denote (Set.Ico start (start + size))) := by
  cases o with
  | add => exact h.add hw hr
  | remove => exact h.remove hw hr

theorem returns {md : SpaceMap} {start size : ℕ} (zfsRecover : Bool) (h : md.Inv)
    (hw : md.smStart + md.smSize < 2 ^ 64) (hsize : size ≠ 0) (hf : md.Fits ⟨start, start + size⟩)
    (hp : o.Pre md.denote (Set.Ico start (start + size))) :
    ∃ md', o.call zfsRecover md start size = some md' ∧
      md.Becomes md' (o.apply md.denote (Set.Ico start (start + size))) := by
  have hdvd : 2 ^ md.smShift ∣ size := (Nat.dvd_add_right hf.start_dvd).1 hf.stop_dvd
  cases o with
  | add => exact h.add_of_disjoint zfsRecover hsize hw hf.start_le hf.stop_le hf.start_dvd hdvd hp
  | remove => exact h.remove_of_subset zfsRecover hsize hf.start_dvd hdvd hp

end SegOp

namespace SpaceMap

variable {sm md md' : SpaceMap}

section Fold

variable {f : SpaceMap → ℕ → ℕ → Option SpaceMap} {o : SegOp} {zfsRecover : Bool}
  {seg : ℕ → SpaceSeg} {order : List ℕ}

/-- The offsets of the segments at some addresses. -/
def coverOf (seg : ℕ → SpaceSeg) (order : List ℕ) : Set ℕ :=
  cover (fun i => (seg i).ssStart) (fun i => (seg i).ssEnd) order

theorem coverOf_cons (a : ℕ) (order : List ℕ) :
    coverOf seg (a :: order) = Set.Ico (seg a).ssStart (seg a).ssEnd ∪ coverOf seg order :=
  cover_cons a order

theorem forSegs_cons (a : ℕ) : forSegs seg f (a :: order) md =
      (f md (seg a).ssStart (usub (seg a).ssEnd (seg a).ssStart) >>= forSegs seg f order) := by
  rfl

theorem usub_seg {ss : SpaceSeg} (hle : ss.ssStart ≤ ss.ssEnd) (hlt : ss.ssEnd < 2 ^ 64) :
    ss.ssStart + usub ss.ssEnd ss.ssStart = ss.ssEnd := by
  rw [usub_of_le hle hlt]
  omega

theorem forSegs_becomes : ∀ {order : List ℕ} {md : SpaceMap}, md.Inv →
      (∀ a ∈ order, (seg a).ssStart ≤ (seg a).ssEnd ∧ (seg a).ssEnd < 2 ^ 64) →
      forSegs seg (o.call zfsRecover) order md = some md' →
      md.Becomes md' (o.apply md.denote (coverOf seg order))
  | [], md, h, _, hr => by
    have hmd : md = md' := by simpa [forSegs] using hr
    subst hmd
    simpa [coverOf] using h.becomes_self
  | a :: order, md, h, hseg, hr => by
    obtain ⟨md1, hr1, hr2⟩ := Option.bind_eq_some_iff.1 hr
    obtain ⟨hle, hlt⟩ := hseg a (by simp)
    have hw := usub_seg hle hlt
    have hb1 := SegOp.becomes h (by omega) hr1
    have hb2 := forSegs_becomes hb1.inv (fun b hb => hseg b (by simp [hb])) hr2
    rw [hb1.denote, SegOp.apply_union, hw, ← coverOf_cons] at hb2
    exact hb1.trans hb2

theorem forSegs_returns : ∀ {order : List ℕ} {md : SpaceMap}, md.Inv → md.smStart + md.smSize < 2 ^ 64 →
      order.Pairwise (fun a b => Disjoint (Set.Ico (seg a).ssStart (seg a).ssEnd)
        (Set.Ico (seg b).ssStart (seg b).ssEnd)) →
      (∀ a ∈ order, (seg a).ssStart < (seg a).ssEnd ∧ md.Fits (seg a)) →
      o.Pre md.denote (coverOf seg order) →
      ∃ md', forSegs seg (o.call zfsRecover) order md = some md'
  | [], md, _, _, _, _, _ => ⟨md, rfl⟩
  | a :: order, md, h, hw, hpw, hseg, hpre => by
    obtain ⟨hlt, hfit⟩ := hseg a (by simp)
    obtain ⟨hpw1, hpw2⟩ := pairwise_cons.1 hpw
    have hsz := usub_seg hlt.le hfit.stop_lt
    rw [coverOf_cons] at hpre
    have hpre1 := hpre.left
    rw [← hsz] at hpre1
    obtain ⟨md1, hr1, hb1⟩ := SegOp.returns zfsRecover h hw (by omega) (by rw [hsz]; exact hfit) hpre1
    have hd : Disjoint (Set.Ico (seg a).ssStart (seg a).ssEnd) (coverOf seg order) := by
      refine disjoint_left.2 fun x hx hx' => ?_
      obtain ⟨b, hb, h1, h2⟩ := hx'
      exact disjoint_left.1 (hpw1 b hb) hx ⟨h1, h2⟩
    have hpre2 := hpre.right hd
    rw [hsz] at hb1
    rw [← hb1.denote] at hpre2
    have hw1 : md1.smStart + md1.smSize < 2 ^ 64 := by rwa [hb1.frame.start, hb1.frame.size]
    obtain ⟨md', hr2⟩ := forSegs_returns hb1.inv hw1 hpw2
      (fun b hb => ⟨(hseg b (by simp [hb])).1, hb1.frame.fits (hseg b (by simp [hb])).2⟩) hpre2
    exact ⟨md', by rw [forSegs_cons, hr1]; exact hr2⟩

end Fold

/-! ## `space_map_walk` and `space_map_vacate` -/

theorem Inv.seg_le (h : sm.Inv) {order : List ℕ} (ho : order.Perm sm.smRoot) {a : ℕ}
    (ha : a ∈ order) : (sm.smSeg a).ssStart < (sm.smSeg a).ssEnd ∧ sm.Fits (sm.smSeg a) :=
  ⟨h.sep.pos a (ho.mem_iff.1 ha), h.fits a (ho.mem_iff.1 ha)⟩

theorem Inv.segs_disjoint (h : sm.Inv) {order : List ℕ} (ho : order.Perm sm.smRoot) :
    order.Pairwise fun a b => Disjoint (Set.Ico (sm.smSeg a).ssStart (sm.smSeg a).ssEnd)
      (Set.Ico (sm.smSeg b).ssStart (sm.smSeg b).ssEnd) := by
  refine (ho.pairwise_iff fun {a b} hab => hab.symm).2 ?_
  refine h.sep.order.imp fun {a b} hab => ?_
  refine disjoint_left.2 fun x hx hx' => ?_
  exact absurd (hx.2.trans (lt_of_lt_of_le hab hx'.1)) (lt_irrefl _)

theorem coverOf_perm {order : List ℕ} (ho : order.Perm sm.smRoot) : coverOf sm.smSeg order = sm.denote := by
  ext x
  simp only [coverOf, denote, mem_cover, ho.mem_iff]
  rfl

section Vacate

variable {o : SegOp} {zfsRecover : Bool} {order : List ℕ}

theorem Inv.forAll (h : sm.Inv) (ho : order.Perm sm.smRoot) (hmd : md.Inv)
    (hr : forSegs sm.smSeg (o.call zfsRecover) order md = some md') :
    md.Becomes md' (o.apply md.denote sm.denote) := by
  rw [← coverOf_perm ho]
  exact forSegs_becomes hmd (fun a ha => ⟨(h.seg_le ho ha).1.le, (h.seg_le ho ha).2.stop_lt⟩) hr

theorem Inv.forAll_returns (h : sm.Inv) (ho : order.Perm sm.smRoot) (zfsRecover : Bool)
    (hmd : md.Inv) (hw : md.smStart + md.smSize < 2 ^ 64) (hstart : sm.smStart = md.smStart)
    (hsize : sm.smSize = md.smSize) (hshift : sm.smShift = md.smShift)
    (hpre : o.Pre md.denote sm.denote) :
    ∃ md', forSegs sm.smSeg (o.call zfsRecover) order md = some md' ∧
      md.Becomes md' (o.apply md.denote sm.denote) := by
  rw [← coverOf_perm ho] at hpre
  obtain ⟨md', hr⟩ := forSegs_returns hmd hw (h.segs_disjoint ho) (fun a ha => by
    obtain ⟨hpos, hfit⟩ := h.seg_le ho ha
    exact ⟨hpos, hshift ▸ hfit.start_dvd, hshift ▸ hfit.stop_dvd, hstart ▸ hfit.start_le,
      by rw [← hstart, ← hsize]; exact hfit.stop_le, hfit.stop_lt⟩) hpre
  exact ⟨md', hr, h.forAll ho hmd hr⟩

theorem vacated (hpp : sm.smPpRoot = none) : sm.Becomes { sm with smRoot := [], smSpace := 0 } ∅ := by
  refine ⟨⟨by simp, by simp, by simp, by simp, ?_⟩, by simp [denote], rfl, rfl, rfl, rfl, rfl, rfl⟩
  intro pp hp
  rw [hpp] at hp
  cases hp

end Vacate

/-! ## The picker tree of a map -/

theorem Inv.ppLoad (h : sm.Inv) : ∃ pp, metaslabPpLoad sm = some { sm with smPpRoot := some pp } ∧
      { sm with smPpRoot := some pp }.Inv := by
  -- the segments in `k` are already in the picker tree
  have key : ∀ (rest k : List ℕ) (pp : List ℕ), sm.smRoot = k ++ rest → PpOk sm.smSeg k pp →
      ∃ pp', rest.foldlM (fun sm a => sm.ppAdd a) { sm with smPpRoot := some pp } =
        some { sm with smPpRoot := some pp' } ∧ PpOk sm.smSeg sm.smRoot pp' := by
    intro rest
    induction rest with
    | nil => exact fun k pp hk hok => ⟨pp, rfl, by rw [hk, append_nil]; exact hok⟩
    | cons a rest ih =>
      intro k pp hk hok
      have hsub : (k ++ [a]).Sublist sm.smRoot := by
        rw [hk]
        exact (Sublist.refl k).append (by simp)
      obtain ⟨p, hadd, hsome, hpok⟩ : ∃ p, { sm with smPpRoot := some pp }.ppAdd a =
          some { sm with smPpRoot := p } ∧ p.isSome = true ∧
          ∀ pp, p = some pp → PpOk sm.smSeg (k ++ [a]) pp :=
        @ppAdd_spec { sm with smPpRoot := some pp } k [] a (h.sep.sublist hsub)
          (fun i hi => (h.fits i (hsub.subset hi)).stop_lt)
          (fun q hq => by cases hq; simpa using hok)
      obtain ⟨pp', rfl⟩ := Option.isSome_iff_exists.1 hsome
      obtain ⟨pp'', hr, hok'⟩ := ih (k ++ [a]) pp' (by simpa using hk) (hpok pp' rfl)
      exact ⟨pp'', by rw [foldlM_cons, hadd]; exact hr, hok'⟩
  obtain ⟨pp, hr, hok⟩ := key sm.smRoot [] [] rfl ⟨.refl _, .nil⟩
  refine ⟨pp, hr, h.fresh, h.sep, fun i hi => ?_, h.space, ?_⟩
  · obtain ⟨h1, h2, h3, h4, h5⟩ := h.fits i hi
    exact ⟨h1, h2, h3, h4, h5⟩
  · intro q hq
    cases hq
    exact hok

theorem Inv.ppUnload (h : sm.Inv) : (metaslabPpUnload sm).Inv := by
  refine ⟨h.fresh, h.sep, fun i hi => ?_, h.space, ?_⟩
  · obtain ⟨h1, h2, h3, h4, h5⟩ := h.fits i hi
    exact ⟨h1, h2, h3, h4, h5⟩
  · intro q hq
    cases hq

end SpaceMap

end Osol.Zfs
