import Mathlib

/-!
# Sleep queues

`sleepq_insert` puts a thread behind the threads of its own priority and before those of a lower one.
A queue is one list; its sublists of equal priority, which only make the walk faster, are left out.
-/

namespace Osol.Turnstile

open List

variable {T : Type} {pri : T → ℕ} {t u : T} {q : List T}

def sleepqInsert (pri : T → ℕ) (t : T) : List T → List T
  | [] => [t]
  | u :: q => if pri t > pri u then t :: u :: q else u :: sleepqInsert pri t q

theorem sleepqInsert_perm (pri : T → ℕ) (t : T) (q : List T) : (sleepqInsert pri t q).Perm (t :: q) := by
  induction q with
  | nil => exact List.Perm.refl _
  | cons u q ih =>
    unfold sleepqInsert
    split
    · exact List.Perm.refl _
    · exact (ih.cons u).trans (Perm.swap t u q)

theorem mem_sleepqInsert (pri : T → ℕ) (t u : T) (q : List T) :
    u ∈ sleepqInsert pri t q ↔ u = t ∨ u ∈ q := by
  rw [(sleepqInsert_perm pri t q).mem_iff, mem_cons]

theorem nodup_sleepqInsert (ht : t ∉ q) (hq : q.Nodup) : (sleepqInsert pri t q).Nodup :=
  (sleepqInsert_perm pri t q).nodup_iff.2 (nodup_cons.2 ⟨ht, hq⟩)

theorem sleepqInsert_ne_nil (pri : T → ℕ) (t : T) (q : List T) : sleepqInsert pri t q ≠ [] :=
  ne_nil_of_mem ((mem_sleepqInsert pri t t q).2 (.inl rfl))

/-- The first threads have the highest priority. -/
def Sorted (pri : T → ℕ) (q : List T) : Prop := q.Pairwise fun t u => pri u ≤ pri t

theorem sorted_sleepqInsert (hq : Sorted pri q) : Sorted pri (sleepqInsert pri t q) := by
  induction q with
  | nil => exact pairwise_singleton _ _
  | cons u q ih =>
    obtain ⟨hu, hq⟩ := pairwise_cons.1 hq
    unfold sleepqInsert
    split
    · rename_i hlt
      refine pairwise_cons.2 ⟨fun v hv => ?_, pairwise_cons.2 ⟨hu, hq⟩⟩
      rcases mem_cons.1 hv with rfl | hv
      · exact Nat.le_of_lt hlt
      · exact Nat.le_trans (hu v hv) (Nat.le_of_lt hlt)
    · rename_i hle
      refine pairwise_cons.2 ⟨fun v hv => ?_, ih hq⟩
      rcases (mem_sleepqInsert pri t v q).1 hv with rfl | hv
      · exact Nat.le_of_not_lt hle
      · exact hu v hv

end Osol.Turnstile
