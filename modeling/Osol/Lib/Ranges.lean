import Mathlib

/-!
# Ordered families of half-open ranges

`lo i` and `hi i` are the bounds of the range named by `i`. A list of names
`Apart lo hi l` is ordered, disjoint and without empty ranges; `Separated lo hi l`
is ordered with a gap between neighbours, so that no two ranges touch.
`cover lo hi l` is the set the ranges cover.

The two splitting lemmas are what an ordered search needs: a range off the cover
splits the list at one point, and a range inside the cover of a separated list
lies in a single member.
-/

namespace Osol.Lib

open Set List

variable {ι α : Type*} [LinearOrder α]

def cover (lo hi : ι → α) (l : List ι) : Set α := {x | ∃ i ∈ l, lo i ≤ x ∧ x < hi i}

/-- Ordered, disjoint, non-empty ranges. -/
@[mk_iff] structure Apart (lo hi : ι → α) (l : List ι) : Prop where
  order : l.Pairwise fun i j => hi i ≤ lo j
  pos : ∀ i ∈ l, lo i < hi i

/-- Ordered ranges with a gap between any two. -/
@[mk_iff] structure Separated (lo hi : ι → α) (l : List ι) : Prop where
  order : l.Pairwise fun i j => hi i < lo j
  pos : ∀ i ∈ l, lo i < hi i

variable {lo hi : ι → α} {l l1 l2 : List ι} {a b : α}

@[simp] theorem mem_cover {x : α} : x ∈ cover lo hi l ↔ ∃ i ∈ l, lo i ≤ x ∧ x < hi i := Iff.rfl

@[simp] theorem cover_nil : cover lo hi ([] : List ι) = ∅ := by
  ext x; simp

theorem cover_cons (i : ι) (l : List ι) : cover lo hi (i :: l) = Set.Ico (lo i) (hi i) ∪ cover lo hi l := by
  ext x; simp

theorem cover_append (l1 l2 : List ι) : cover lo hi (l1 ++ l2) = cover lo hi l1 ∪ cover lo hi l2 := by
  ext x; simp [or_and_right, exists_or]

variable {lo' hi' : ι → α}

theorem cover_congr (hlo : ∀ i ∈ l, lo i = lo' i) (hhi : ∀ i ∈ l, hi i = hi' i) :
    cover lo hi l = cover lo' hi' l := by
  ext x
  constructor
  · rintro ⟨i, hi, h⟩
    exact ⟨i, hi, by rwa [← hlo i hi, ← hhi i hi]⟩
  · rintro ⟨i, hi, h⟩
    exact ⟨i, hi, by rwa [hlo i hi, hhi i hi]⟩

theorem Separated.apart (h : Separated lo hi l) : Apart lo hi l :=
  ⟨h.order.imp fun hij => hij.le, h.pos⟩

theorem Separated.congr (h : Separated lo hi l) (hlo : ∀ i ∈ l, lo i = lo' i)
    (hhi : ∀ i ∈ l, hi i = hi' i) : Separated lo' hi' l := by
  refine ⟨h.order.imp_of_mem fun {i j} hi hj hij => ?_, fun i hi => ?_⟩
  · rwa [← hhi i hi, ← hlo j hj]
  · rw [← hlo i hi, ← hhi i hi]; exact h.pos i hi

theorem separated_append : Separated lo hi (l1 ++ l2) ↔
      Separated lo hi l1 ∧ Separated lo hi l2 ∧ ∀ i ∈ l1, ∀ j ∈ l2, hi i < lo j := by
  simp only [separated_iff, pairwise_append, forall_mem_append]
  tauto

variable {i : ι}

theorem separated_cons : Separated lo hi (i :: l) ↔ lo i < hi i ∧ Separated lo hi l ∧ ∀ j ∈ l,
    hi i < lo j := by
  simp only [separated_iff, pairwise_cons, forall_mem_cons]
  tauto

@[simp] theorem separated_nil : Separated lo hi ([] : List ι) := ⟨.nil, by simp⟩

theorem Separated.sublist {l' : List ι} (h : Separated lo hi l) (hl : l'.Sublist l) : Separated lo hi l' :=
  ⟨h.order.sublist hl, fun i hi => h.pos i (hl.subset hi)⟩

theorem Separated.lo_ne {j : ι} (h : Separated lo hi (l1 ++ i :: l2)) (hj : j ∈ l1 ++ l2) :
    lo j ≠ lo i := by
  obtain ⟨h1, h2, h12⟩ := separated_append.1 h
  obtain ⟨hi, _, hi2⟩ := separated_cons.1 h2
  rcases mem_append.1 hj with hj | hj
  · exact ((h1.pos j hj).trans (h12 j hj i (by simp))).ne
  · exact (hi.trans (hi2 j hj)).ne'

theorem Separated.splice {mid mid' : List ι}
    (h : Separated lo hi (l1 ++ (mid ++ l2))) (hmid : Separated lo' hi' mid')
    (hlo : ∀ i ∈ l1 ++ l2, lo i = lo' i) (hhi : ∀ i ∈ l1 ++ l2, hi i = hi' i)
    (hleft : ∀ i ∈ l1, ∀ j ∈ mid', hi i < lo' j) (hright : ∀ i ∈ mid', ∀ j ∈ l2, hi' i < lo j) :
    Separated lo' hi' (l1 ++ (mid' ++ l2)) := by
  rw [separated_append, separated_append] at h ⊢
  obtain ⟨h1, ⟨_, h2, _⟩, h12⟩ := h
  refine ⟨h1.congr (fun i hi => hlo i (by simp [hi])) (fun i hi => hhi i (by simp [hi])),
    ⟨hmid, h2.congr (fun i hi => hlo i (by simp [hi])) (fun i hi => hhi i (by simp [hi])),
      fun i hi j hj => ?_⟩, fun i hi j hj => ?_⟩
  · rw [← hlo j (by simp [hj])]
    exact hright i hi j hj
  · rw [← hhi i (by simp [hi])]
    rcases mem_append.1 hj with hj | hj
    · exact hleft i hi j hj
    · rw [← hlo j (by simp [hj])]
      exact h12 i hi j (by simp [hj])

theorem apart_cons : Apart lo hi (i :: l) ↔ lo i < hi i ∧ Apart lo hi l ∧ ∀ j ∈ l, hi i ≤ lo j := by
  simp only [apart_iff, pairwise_cons, forall_mem_cons]
  tauto

/-- A range off the cover splits the list: the members before it end by `a`, those
after it start from `b`. -/
theorem Apart.exists_split (h : Apart lo hi l) (hab : a < b)
    (hd : Disjoint (Set.Ico a b) (cover lo hi l)) :
    ∃ l1 l2, l = l1 ++ l2 ∧ (∀ i ∈ l1, hi i ≤ a) ∧ ∀ i ∈ l2, b ≤ lo i := by
  induction l with
  | nil => exact ⟨[], [], rfl, by simp, by simp⟩
  | cons i l ih =>
    obtain ⟨hpos, hl, hij⟩ := apart_cons.1 h
    have hoff : hi i ≤ a ∨ b ≤ lo i := by
      by_contra hcon
      push Not at hcon
      obtain ⟨h1, h2⟩ := hcon
      -- the larger of the two starts lies in both ranges
      have hin : max a (lo i) ∈ Set.Ico a b := ⟨le_max_left _ _, max_lt hab h2⟩
      exact disjoint_left.1 hd hin ⟨i, by simp, le_max_right _ _, max_lt h1 hpos⟩
    rcases hoff with hia | hbi
    · have hd' : Disjoint (Set.Ico a b) (cover lo hi l) :=
        hd.mono_right (by rw [cover_cons]; exact subset_union_right)
      obtain ⟨l1, l2, rfl, h1, h2⟩ := ih hl hd'
      refine ⟨i :: l1, l2, rfl, fun j hj => ?_, h2⟩
      rcases mem_cons.1 hj with rfl | hj
      · exact hia
      · exact h1 j hj
    · refine ⟨[], i :: l, rfl, by simp, fun j hj => ?_⟩
      rcases mem_cons.1 hj with rfl | hj
      · exact hbi
      · exact hbi.trans (hpos.le.trans (hij j hj))

theorem Separated.exists_mem (h : Separated lo hi l) (hab : a < b)
    (hs : Set.Ico a b ⊆ cover lo hi l) : ∃ i ∈ l, lo i ≤ a ∧ b ≤ hi i := by
  obtain ⟨i, hil, hlo, hhi⟩ := hs (show a ∈ Set.Ico a b from ⟨le_rfl, hab⟩)
  refine ⟨i, hil, hlo, ?_⟩
  by_contra hb
  push Not at hb
  -- the end of member `i` would be covered by a second member that touches it
  obtain ⟨j, hjl, hj1, hj2⟩ := hs (show hi i ∈ Set.Ico a b from ⟨hhi.le, hb⟩)
  obtain ⟨l1, l2, rfl⟩ := append_of_mem hil
  obtain ⟨h1, h2, h12⟩ := separated_append.1 h
  obtain ⟨_, _, hi2⟩ := separated_cons.1 h2
  rcases mem_append.1 hjl with hj | hj
  · exact absurd (h12 j hj i (by simp)) (not_lt.2 (hlo.trans (hhi.le.trans hj2.le)))
  · rcases mem_cons.1 hj with rfl | hj
    · exact absurd hj2 (lt_irrefl _)
    · exact absurd (hi2 j hj) (not_lt.2 hj1)

theorem Apart.eq_of_mem (h : Apart lo hi l) {j : ι} {x : α} (hil : i ∈ l) (hjl : j ∈ l)
    (hi1 : lo i ≤ x) (hi2 : x < hi i) (hj1 : lo j ≤ x) (hj2 : x < hi j) : i = j := by
  induction l with
  | nil => simp at hil
  | cons k l ih =>
    obtain ⟨_, hl, hk⟩ := apart_cons.1 h
    rcases mem_cons.1 hil with rfl | hil'
    · rcases mem_cons.1 hjl with rfl | hjl'
      · rfl
      · exact absurd (hj1.trans_lt hi2) (not_lt.2 (hk j hjl'))
    · rcases mem_cons.1 hjl with rfl | hjl'
      · exact absurd (hi1.trans_lt hj2) (not_lt.2 (hk i hil'))
      · exact ih hl hil' hjl'

/-! ## Ranges of natural numbers -/

section Nat

variable {lo hi : ι → ℕ} {l : List ι}

theorem finite_cover (lo hi : ι → ℕ) (l : List ι) : (cover lo hi l).Finite := by
  induction l with
  | nil => simp
  | cons i l ih => rw [cover_cons]; exact (finite_Ico _ _).union ih

theorem ncard_Ico (a b : ℕ) : (Set.Ico a b).ncard = b - a := by
  rw [← Finset.coe_Ico, ncard_coe_finset, Nat.card_Ico]

theorem Apart.ncard_cover (h : Apart lo hi l) :
    (cover lo hi l).ncard = (l.map fun i => hi i - lo i).sum := by
  induction l with
  | nil => simp
  | cons i l ih =>
    obtain ⟨_, hl, hij⟩ := apart_cons.1 h
    have hd : Disjoint (Set.Ico (lo i) (hi i)) (cover lo hi l) := by
      refine disjoint_left.2 fun x hx hxl => ?_
      obtain ⟨j, hj, hjx, _⟩ := hxl
      exact absurd (hx.2.trans_le (hij j hj)) (not_lt.2 hjx)
    rw [cover_cons, ncard_union_eq hd (finite_Ico _ _) (finite_cover _ _ _), ncard_Ico, ih hl]
    simp

end Nat

end Osol.Lib
