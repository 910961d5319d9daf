import Mathlib

/-!
# Things in places

Things are on lists, one list for each place, and each thing is on one list and there only once.
Taking a thing from one list to another, or a whole list to an empty one, keeps that.
-/

namespace Osol.Lib

open Function List

variable {ι α : Type*} [DecidableEq ι] {things : List α} {f : ι → List α} {p q : ι} {c : α}

/-- Each of the things is on one of the lists, once, and nothing else is. -/
structure Places (things : List α) (f : ι → List α) : Prop where
  nodup : ∀ p, (f p).Nodup
  unique : ∀ p q c, c ∈ f p → c ∈ f q → p = q
  mem_iff : ∀ c, c ∈ things ↔ ∃ p, c ∈ f p

/-- The thing `c` of the list at `p`, where the rest is `l`, comes to the head of the one at
`q`. -/
def moveOne (f : ι → List α) (p q : ι) (c : α) (l : List α) : ι → List α :=
  update (update f p l) q (c :: f q)

def moveAll (f : ι → List α) (p q : ι) : ι → List α :=
  update (update f p []) q (f p)

theorem moveOne_apply (f : ι → List α) (p q : ι) (c : α) (l : List α) (r : ι) :
    moveOne f p q c l r = if r = q then c :: f q else if r = p then l else f r := by
  unfold moveOne
  simp only [update_apply]

theorem moveAll_apply (f : ι → List α) (p q : ι) (r : ι) :
    moveAll f p q r = if r = q then f p else if r = p then [] else f r := by
  unfold moveAll
  simp only [update_apply]

variable {l : List α} {r : ι} {x : α}

section

variable (h : Places things f) (hpq : p ≠ q)
include h hpq

theorem mem_moveOne (hl : (f p).Perm (c :: l)) :
    x ∈ moveOne f p q c l r ↔ (x = c ∧ r = q) ∨ (x ≠ c ∧ x ∈ f r) := by
  have hnd : (c :: l).Nodup := hl.nodup_iff.1 (h.nodup p)
  have hc : c ∈ f p := hl.mem_iff.2 mem_cons_self
  rw [moveOne_apply]
  by_cases hrq : r = q
  · subst hrq
    rw [if_pos rfl, mem_cons]
    constructor
    · rintro (rfl | hx)
      · exact .inl ⟨rfl, rfl⟩
      · exact .inr ⟨fun hxc => hpq (h.unique p r c hc (hxc ▸ hx)), hx⟩
    · rintro (⟨rfl, -⟩ | ⟨-, hx⟩)
      · exact .inl rfl
      · exact .inr hx
  · rw [if_neg hrq]
    by_cases hrp : r = p
    · subst hrp
      rw [if_pos rfl]
      constructor
      · intro hx
        refine .inr ⟨?_, hl.mem_iff.2 (mem_cons_of_mem c hx)⟩
        rintro rfl
        exact (nodup_cons.1 hnd).1 hx
      · rintro (⟨-, rfl⟩ | ⟨hxc, hx⟩)
        · exact absurd rfl hrq
        · exact (mem_cons.1 (hl.mem_iff.1 hx)).resolve_left hxc
    · rw [if_neg hrp]
      constructor
      · intro hx
        refine .inr ⟨?_, hx⟩
        rintro rfl
        exact hrp (h.unique r p x hx hc)
      · rintro (⟨-, rfl⟩ | ⟨-, hx⟩)
        · exact absurd rfl hrq
        · exact hx

theorem Places.moveOne (hl : (f p).Perm (c :: l)) : Places things (moveOne f p q c l) := by
  have hc : c ∈ f p := hl.mem_iff.2 mem_cons_self
  have hmem := fun r x => mem_moveOne (r := r) (x := x) h hpq hl
  refine ⟨fun r => ?_, fun r r' x hx hx' => ?_, fun x => ?_⟩
  · have hnd : (c :: l).Nodup := hl.nodup_iff.1 (h.nodup p)
    rw [moveOne_apply]
    split
    · exact nodup_cons.2 ⟨fun hq => hpq (h.unique p q c hc hq), h.nodup q⟩
    · split
      · exact (nodup_cons.1 hnd).2
      · exact h.nodup r
  · rcases (hmem r x).1 hx with ⟨h1, h2⟩ | ⟨h1, h2⟩ <;>
      rcases (hmem r' x).1 hx' with ⟨h3, h4⟩ | ⟨h3, h4⟩
    · rw [h2, h4]
    · exact absurd h1 h3
    · exact absurd h3 h1
    · exact h.unique r r' x h2 h4
  · rw [h.mem_iff]
    constructor
    · rintro ⟨r, hr⟩
      by_cases hxc : x = c
      · exact ⟨q, (hmem q x).2 (.inl ⟨hxc, rfl⟩)⟩
      · exact ⟨r, (hmem r x).2 (.inr ⟨hxc, hr⟩)⟩
    · rintro ⟨r, hr⟩
      rcases (hmem r x).1 hr with ⟨rfl, -⟩ | ⟨-, hx⟩
      · exact ⟨p, hc⟩
      · exact ⟨r, hx⟩

theorem Places.moveAll (hq : f q = []) : Places things (moveAll f p q) := by
  have hmem : ∀ r x, x ∈ Osol.Lib.moveAll f p q r ↔ (r = q ∧ x ∈ f p) ∨ (r ≠ q ∧ r ≠ p ∧ x ∈ f r) := by
    intro r x
    rw [moveAll_apply]
    split
    · rename_i hr
      simp [hr]
    rename_i hr
    split_ifs with hp
    · simp [hp, hpq]
    · simp [hr, hp]
  refine ⟨fun r => ?_, fun r r' x hx hx' => ?_, fun x => ?_⟩
  · rw [moveAll_apply]
    split
    · exact h.nodup p
    · split
      · exact nodup_nil
      · exact h.nodup r
  · rcases (hmem r x).1 hx with ⟨h1, h2⟩ | ⟨h1, h2, h3⟩ <;>
      rcases (hmem r' x).1 hx' with ⟨h4, h5⟩ | ⟨h4, h5, h6⟩
    · rw [h1, h4]
    · exact absurd (h.unique _ _ x h6 h2) h5
    · exact absurd (h.unique _ _ x h3 h5) h2
    · exact h.unique r r' x h3 h6
  rw [h.mem_iff]
  constructor
  · rintro ⟨r, hr⟩
    by_cases hrp : r = p
    · exact ⟨q, (hmem q x).2 (.inl ⟨rfl, hrp ▸ hr⟩)⟩
    · refine ⟨r, (hmem r x).2 (.inr ⟨?_, hrp, hr⟩)⟩
      rintro rfl
      rw [hq] at hr
      cases hr
  · rintro ⟨r, hr⟩
    rcases (hmem r x).1 hr with ⟨-, hx⟩ | ⟨-, -, hx⟩
    · exact ⟨p, hx⟩
    · exact ⟨r, hx⟩

end

end Osol.Lib
