import Mathlib

/-!
# Total correctness of stateful programs

A program that can go wrong is a `StateT σ Option`: `none` is an access outside an array, or
a loop that is not over. `Total` says that it does not happen.
-/

namespace Osol.Lib

variable {σ α β : Type} {P Q : σ → Prop} {R S : α → σ → Prop}

def Total (P : σ → Prop) (m : StateT σ Option α) (R : α → σ → Prop) : Prop :=
  ∀ s, P s → ∃ a s', m s = some (a, s') ∧ R a s'

variable {m : StateT σ Option α} {c : Prop}

namespace Total

theorem pure {a : α} (h : ∀ s, P s → R a s) : Total P (Pure.pure a) R :=
  fun s hs => ⟨a, s, rfl, h s hs⟩

theorem bind {f : α → StateT σ Option β} {T : β → σ → Prop}
    (hm : Total P m R) (hf : ∀ a, Total (R a) (f a) T) : Total P (m >>= f) T := by
  intro s hs
  obtain ⟨a, s', h1, h2⟩ := hm s hs
  obtain ⟨b, s'', h3, h4⟩ := hf a s' h2
  refine ⟨b, s'', ?_, h4⟩
  show (m s).bind _ = _
  rwa [h1]

theorem imp (h : Total P m R) (hR : ∀ a s, R a s → S a s) : Total P m S := by
  intro s hs
  obtain ⟨a, s', h1, h2⟩ := h s hs
  exact ⟨a, s', h1, hR a s' h2⟩

theorem of_fact {p : Prop} (h : p → Total P m R) : Total (fun s => P s ∧ p) m R :=
  fun s hs => h hs.2 s hs.1

theorem ite [Decidable c] {m' : StateT σ Option α} (h : Total P m R)
    (h' : Total P m' R) : Total P (if c then m else m') R := by
  split
  · exact h
  · exact h'

end Total

abbrev Keeps (P : σ → Prop) (m : StateT σ Option α) : Prop := Total P m fun _ => P

theorem Keeps.bind {f : α → StateT σ Option β} (hm : Keeps P m)
    (hf : ∀ a, Keeps P (f a)) : Keeps P (m >>= f) :=
  Total.bind hm hf

theorem Keeps.pure (a : α) : Keeps P (Pure.pure a : StateT σ Option α) :=
  Total.pure fun _ hs => hs

theorem Keeps.ite [Decidable c] {m' : StateT σ Option α} (h : Keeps P m)
    (h' : Keeps P m') : Keeps P (if c then m else m') :=
  Total.ite h h'

end Osol.Lib
