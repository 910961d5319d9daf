import Mathlib

/-!
# Lists in groups

Several lists can share one: the entries of one key stand side by side, wherever the group is.
Taking an entry out keeps the groups. Putting one in keeps them if it is put next to its group,
or, for a key that is new, at the end.
-/

namespace Osol.Lib

open List

variable {α κ : Type*} {f : α → κ} {l l' A B : List α} {n : α}

/-- No entry of another key stands between two of one key. -/
def Grouped (f : α → κ) (l : List α) : Prop :=
  ∀ x y z, [x, y, z].Sublist l → f x = f z → f y = f x

theorem Grouped.sublist (h : Grouped f l) (hs : l'.Sublist l) : Grouped f l' :=
  fun x y z hxyz => h x y z (hxyz.trans hs)

theorem pair_sublist_cons {x y : α} (hy : y ∈ l) : [x, y].Sublist (x :: l) :=
  (singleton_sublist.2 hy).cons_cons x

theorem Grouped.exists_split [DecidableEq κ] (h : Grouped f l) (k : κ) :
    ∃ pre post, l = pre ++ l.filter (fun x => f x = k) ++ post ∧ (∀ x ∈ pre, f x ≠ k) ∧ ∀ x ∈ post,
    f x ≠ k := by
  induction l with
  | nil => exact ⟨[], [], rfl, by simp, by simp⟩
  | cons a l ih =>
    obtain ⟨pre, post, hl, hpre, hpost⟩ := ih (h.sublist (sublist_cons_self a l))
    by_cases ha : f a = k
    · rw [filter_cons_of_pos (by simpa using ha)]
      rcases hg : l.filter (fun x => f x = k) with _ | ⟨g, gs⟩
      · refine ⟨[], l, by simp, by simp, fun x hx hxk => ?_⟩
        have : x ∈ l.filter (fun x => f x = k) := mem_filter.2 ⟨hx, by simpa using hxk⟩
        rw [hg] at this
        cases this
      -- The group goes on after `a`, so that nothing can stand before it in `l`.
      have hpre0 : pre = [] := by
        rcases pre with _ | ⟨p, pre⟩
        · rfl
        have hgl : f g = k := by
          have : g ∈ l.filter (fun x => f x = k) := by simp [hg]
          simpa using (mem_filter.1 this).2
        have hsub : [a, p, g].Sublist (a :: l) := by
          rw [hl, hg]
          refine (Sublist.cons_cons p ?_).cons_cons a
          exact singleton_sublist.2 (by simp)
        exact absurd (h a p g hsub (ha.trans hgl.symm) |>.trans ha) (hpre p mem_cons_self)
      subst hpre0
      refine ⟨[], post, ?_, by simp, hpost⟩
      rw [← hg]
      simpa using congrArg (a :: ·) hl
    · refine ⟨a :: pre, post, ?_, ?_, hpost⟩
      · rw [filter_cons_of_neg (by simpa using ha), cons_append, cons_append, ← hl]
      · intro x hx
        rcases mem_cons.1 hx with rfl | hx
        · exact ha
        · exact hpre x hx

/-- The new entry stands next to one of its key, or it is the first of its key and the last of
the list. -/
def Beside (f : α → κ) (A B : List α) (n : α) : Prop :=
  (∃ a A', A = A' ++ [a] ∧ f a = f n) ∨ (∃ b B', B = b :: B' ∧ f b = f n) ∨
    B = [] ∧ ∀ x ∈ A, f x ≠ f n

theorem Grouped.insert (h : Grouped f (A ++ B)) (hb : Beside f A B n) : Grouped f (A ++ n :: B) := by
  intro x y z hs hxz
  obtain ⟨l1, l2, heq, h₁, h2⟩ := sublist_append_iff.1 hs
  rcases sublist_cons_iff.1 h2 with h2 | ⟨r, rfl, hr⟩
  · exact h x y z (heq ▸ h₁.append h2) hxz
  rcases l1 with _ | ⟨u, _ | ⟨v, _ | ⟨w, l1⟩⟩⟩
  · -- `n` is the first of the three, and stands for its neighbour.
    obtain ⟨rfl, rfl⟩ := by simpa [eq_comm] using heq
    rcases hb with ⟨a, A', rfl, ha⟩ | ⟨b, B', rfl, hb⟩ | ⟨rfl, -⟩
    · have hsub : [a, y, z].Sublist (A' ++ [a] ++ B) := by
        rw [append_assoc]
        exact (Sublist.cons_cons a hr).trans (sublist_append_right _ _)
      exact (h a y z hsub (ha.trans hxz)).trans ha
    · rcases sublist_cons_iff.1 hr with hr | ⟨r', hr', -⟩
      · have hsub : [b, y, z].Sublist (A ++ b :: B') :=
          (Sublist.cons_cons b hr).trans (sublist_append_right _ _)
        exact (h b y z hsub (hb.trans hxz)).trans hb
      · rwa [(List.cons.inj hr').1]
    · cases hr
  · -- `n` is in the middle.
    obtain ⟨rfl, rfl, rfl⟩ := by simpa [eq_comm] using heq
    have hx : x ∈ A := singleton_sublist.1 h₁
    have hz : z ∈ B := singleton_sublist.1 hr
    rcases hb with ⟨a, A', rfl, ha⟩ | ⟨b, B', rfl, hb⟩ | ⟨rfl, -⟩
    · rcases mem_append.1 hx with hx | hx
      · have hsub : [x, a, z].Sublist (A' ++ [a] ++ B) := by
          have h1 : [x, a].Sublist (A' ++ [a]) := (singleton_sublist.2 hx).append (Sublist.refl [a])
          exact h1.append (singleton_sublist.2 hz)
        exact ha.symm.trans (h x a z hsub hxz)
      · rw [mem_singleton.1 hx]
        exact ha.symm
    · rcases mem_cons.1 hz with rfl | hz
      · exact hb.symm.trans hxz.symm
      · have hsub : [x, b, z].Sublist (A ++ b :: B') :=
          (singleton_sublist.2 hx).append (pair_sublist_cons hz)
        exact hb.symm.trans (h x b z hsub hxz)
    · cases hz
  · -- `n` is the last.
    obtain ⟨rfl, rfl, rfl, rfl⟩ := by simpa [eq_comm] using heq
    rcases hb with ⟨a, A', rfl, ha⟩ | ⟨b, B', rfl, hb⟩ | ⟨rfl, hne⟩
    · obtain ⟨l3, l4, heq', h3, h4⟩ := sublist_append_iff.1 h₁
      rcases sublist_cons_iff.1 h4 with h4 | ⟨r', rfl, hr'⟩
      · obtain rfl := sublist_nil.1 h4
        have hxy : [x, y].Sublist A' := by rwa [heq', append_nil]
        have hsub : [x, y, a].Sublist (A' ++ [a] ++ B) :=
          (hxy.append (Sublist.refl [a])).trans (sublist_append_left _ _)
        exact h x y a hsub (hxz.trans ha.symm)
      · obtain rfl := sublist_nil.1 hr'
        have hya := (append_inj' (show [x] ++ [y] = l3 ++ [a] from heq') rfl).2
        rw [head_eq_of_cons_eq hya]
        exact ha.trans hxz.symm
    · have hsub : [x, y, b].Sublist (A ++ b :: B') := h₁.append (singleton_sublist.2 mem_cons_self)
      exact h x y b hsub (hxz.trans hb.symm)
    · have hx : x ∈ A := h₁.subset mem_cons_self
      exact absurd hxz (hne x hx)
  · simp at heq

end Osol.Lib
