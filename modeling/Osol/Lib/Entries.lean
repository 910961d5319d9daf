import Mathlib

/-!
# Regions of entries

A region is cut into entries, one after the other, each of which says at its start how long it
is. Some entries have a content, the others are padding. `entry w` is the length and the content
of the entry at `w`.
-/

namespace Osol.Lib

variable {α : Type*} {entry entry' : ℕ → Option (ℕ × Option α)} {lo mid hi : ℕ} {rs rs' : List α}

/-- From `lo` to `hi` there are whole entries, with these contents. -/
inductive Entries (entry : ℕ → Option (ℕ × Option α)) : ℕ → ℕ → List α → Prop where
  | nil (lo : ℕ) : Entries entry lo lo []
  | cons {lo hi n : ℕ} {o : Option α} {rs : List α} : entry lo = some (n, o) → 0 < n →
      Entries entry (lo + n) hi rs → Entries entry lo hi (o.toList ++ rs)

namespace Entries

theorem le (h : Entries entry lo hi rs) : lo ≤ hi := by
  induction h with
  | nil => exact Nat.le_refl _
  | cons _ _ _ ih => omega

theorem append (h : Entries entry lo mid rs) (h' : Entries entry mid hi rs') :
    Entries entry lo hi (rs ++ rs') := by
  induction h with
  | nil => exact h'
  | cons he hn _ ih =>
    rw [List.append_assoc]
    exact .cons he hn (ih h')

theorem single {n : ℕ} {o : Option α} (he : entry lo = some (n, o)) (hn : 0 < n) :
    Entries entry lo (lo + n) o.toList := by
  have := Entries.cons he hn (.nil (lo + n))
  rwa [List.append_nil] at this

theorem congr (h : Entries entry lo hi rs)
    (heq : ∀ w n o, lo ≤ w → w + n ≤ hi → entry w = some (n, o) → entry' w = some (n, o)) :
    Entries entry' lo hi rs := by
  induction h with
  | nil lo => exact .nil lo
  | cons he hn h ih =>
    refine .cons (heq _ _ _ (Nat.le_refl _) h.le he) hn (ih fun w n o h1 h2 => ?_)
    exact heq w n o (by omega) h2

end Entries

/-- The contents of the entries, at most `fuel` of them. -/
def scanEntries (entry : ℕ → Option (ℕ × Option α)) (hi : ℕ) : ℕ → ℕ → Option (List α)
  | 0, _ => none
  | fuel + 1, lo =>
    if lo = hi then some []
    else if hi < lo then none
    else
      match entry lo with
      | none => none
      | some (0, _) => none
      | some (n + 1, o) => (scanEntries entry hi fuel (lo + (n + 1))).map (o.toList ++ ·)

theorem Entries.scan_eq (h : Entries entry lo hi rs) :
    ∀ fuel, hi - lo < fuel → scanEntries entry hi fuel lo = some rs := by
  induction h with
  | nil lo =>
    intro fuel hf
    cases fuel with
    | zero => omega
    | succ fuel => rw [scanEntries, if_pos rfl]
  | @cons lo hi n o rs he hn h ih =>
    intro fuel hf
    have hle := h.le
    cases fuel with
    | zero => omega
    | succ fuel =>
      obtain ⟨n, rfl⟩ : ∃ k, n = k + 1 := ⟨n - 1, by omega⟩
      rw [scanEntries, if_neg (by omega), if_neg (by omega), he]
      dsimp only
      rw [ih fuel (by omega)]
      rfl

end Osol.Lib
