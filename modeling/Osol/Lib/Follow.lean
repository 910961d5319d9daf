import Mathlib

/-!
# Chains of pointers

Each thing points to at most one other thing. When nothing leads back to itself, a chain ends after
fewer steps than there are things.
-/

namespace Osol.Lib

variable {α : Type*} {next next' : α → Option α} {a b c : α}

def Points (next : α → Option α) (a b : α) : Prop := next a = some b

/-- No chain comes back to where it starts. -/
def Acyclic (next : α → Option α) : Prop := ∀ a, ¬ Relation.TransGen (Points next) a a

theorem points_of_transGen (h : Relation.TransGen (Points next) a b) : ∃ c, Points next a c := by
  induction h with
  | single h => exact ⟨_, h⟩
  | tail _ _ ih => exact ih

theorem Acyclic.of_ends (h : Acyclic next)
    (hnew : ∀ a b, next' a = some b → next a = some b ∨ next' b = none) :
    Acyclic next' := by
  have hold : ∀ a b, Relation.TransGen (Points next') a b → (∃ c, Points next' b c) →
      Relation.TransGen (Points next) a b := by
    intro a b hab hb
    induction hab with
    | @single b hab =>
      refine .single ((hnew a b hab).resolve_right fun hnone => ?_)
      obtain ⟨c, hc⟩ := hb
      rw [Points, hnone] at hc
      simp at hc
    | @tail b c hab hbc ih =>
      refine .tail (ih ⟨c, hbc⟩) ((hnew b c hbc).resolve_right fun hnone => ?_)
      obtain ⟨d, hd⟩ := hb
      rw [Points, hnone] at hd
      simp at hd
  exact fun a ha => h a (hold a a ha (points_of_transGen ha))

theorem Acyclic.of_extend (h : Acyclic next) (hother : ∀ b, b ≠ a → next' b = next b)
    (hself : ¬ Relation.TransGen (Points next') a a) : Acyclic next' := by
  intro b hb
  have hsplit : ∀ c d, Relation.TransGen (Points next') c d → Relation.TransGen (Points next) c d ∨
        Relation.ReflTransGen (Points next') c a ∧ Relation.TransGen (Points next') a d := by
    intro c d hcd
    induction hcd with
    | @single d hcd =>
      by_cases hc : c = a
      · subst hc
        exact .inr ⟨.refl, .single hcd⟩
      · exact .inl (.single (by rwa [Points, hother c hc] at hcd))
    | @tail d e hcd hde ih =>
      rcases ih with ih | ⟨h1, h2⟩
      · by_cases hd : d = a
        · subst hd
          exact .inr ⟨hcd.to_reflTransGen, .single hde⟩
        · exact .inl (.tail ih (by rwa [Points, hother d hd] at hde))
      · exact .inr ⟨h1, .tail h2 hde⟩
  rcases hsplit b b hb with h' | ⟨h1, h2⟩
  · exact h b h'
  · exact hself (h2.trans_left h1)

section Rank

variable [Fintype α]

open Classical Finset

/-- How many things a chain still leads to. -/
noncomputable def rank (next : α → Option α) (a : α) : ℕ :=
  (Finset.univ.filter fun b => Relation.TransGen (Points next) a b).card

theorem Acyclic.rank_lt (h : Acyclic next) (hab : next a = some b) : rank next b < rank next a := by
  refine card_lt_card (ssubset_iff_of_subset ?_ |>.2 ⟨b, ?_, ?_⟩)
  · intro c hc
    rw [mem_filter] at hc ⊢
    exact ⟨hc.1, .head hab hc.2⟩
  · rw [mem_filter]
    exact ⟨mem_univ b, .single hab⟩
  · rw [mem_filter]
    exact fun hb => h b hb.2

theorem Acyclic.rank_lt_card (h : Acyclic next) (a : α) : rank next a < Fintype.card α := by
  refine card_lt_card (Finset.ssubset_univ_iff.2 fun heq => ?_)
  have ha : a ∈ Finset.univ.filter fun b => Relation.TransGen (Points next) a b := by
    rw [heq]
    exact mem_univ a
  exact h a (Finset.mem_filter.1 ha).2

end Rank

end Osol.Lib
