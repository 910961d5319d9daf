import Mathlib

/-!
# Arrays that grow by doubling

An array that is too short for an index is copied into one of twice the length, from one
entry on, until it is long enough. `grownLen` is the length it ends with; the entries there
were stay, and the new ones are `zero`.
-/

namespace Osol.Lib

open List

def doubled (n : ℕ) : ℕ := if 2 * n = 0 then 1 else 2 * n

theorem lt_doubled (n : ℕ) : n < doubled n := by
  unfold doubled
  split <;> omega

theorem doubled_le (n : ℕ) : doubled n ≤ 2 * n + 1 := by
  unfold doubled
  split <;> omega

/-- The loop over the lengths, at most `f` times. -/
def grownLenIn (id : ℕ) : ℕ → ℕ → ℕ
  | 0, n => n
  | f + 1, n => if n ≤ id then grownLenIn id f (doubled n) else n

/-- The length of an array of length `n` after `id` was found to be outside. -/
def grownLen (id n : ℕ) : ℕ := grownLenIn id (id + 1) n

/-- The loop over the arrays. -/
def growIn {α : Type*} (zero : α) (id : ℕ) : ℕ → List α → List α
  | 0, l => l
  | f + 1, l =>
    if l.length ≤ id then
      growIn zero id f (l ++ replicate (doubled l.length - l.length) zero)
    else l

def grow {α : Type*} (zero : α) (id : ℕ) (l : List α) : List α := growIn zero id (id + 1) l

/-! ## Lengths -/

theorem grownLenIn_of_lt {id n : ℕ} (h : id < n) (f : ℕ) : grownLenIn id f n = n := by
  cases f with
  | zero => rfl
  | succ f => exact if_neg (by omega)

theorem grownLenIn_eq {id : ℕ} :
    ∀ {f g n : ℕ}, id < f + n → id < g + n → grownLenIn id f n = grownLenIn id g n := by
  intro f
  induction f with
  | zero =>
    intro g n hf hg
    have hn : id < n := by omega
    exact (grownLenIn_of_lt hn g).symm
  | succ f ih =>
    intro g n hf hg
    by_cases hn : id < n
    · rw [grownLenIn_of_lt hn, grownLenIn_of_lt hn]
    cases g with
    | zero => omega
    | succ g =>
      have hlt := lt_doubled n
      show (if n ≤ id then _ else _) = if n ≤ id then _ else _
      rw [if_pos (by omega), if_pos (by omega)]
      exact ih (by omega) (by omega)

theorem grownLen_of_lt {id n : ℕ} (h : id < n) : grownLen id n = n := grownLenIn_of_lt h _

theorem grownLen_of_le {id n : ℕ} (h : n ≤ id) : grownLen id n = grownLen id (doubled n) := by
  have hlt := lt_doubled n
  refine Eq.trans ?_ (grownLenIn_eq (f := id) (by omega) (by omega))
  exact if_pos h

theorem grownLen_induction {motive : ℕ → Prop} (id : ℕ) (inside : ∀ n, id < n → motive n)
    (outside : ∀ n, n ≤ id → motive (doubled n) → motive n) (n : ℕ) : motive n := by
  generalize hk : id + 1 - n = k
  induction k using Nat.strongRecOn generalizing n with
  | ind k ih =>
    by_cases hn : id < n
    · exact inside n hn
    · have hlt := lt_doubled n
      exact outside n (by omega) (ih _ (by omega) _ rfl)

theorem lt_grownLen (id n : ℕ) : id < grownLen id n := by
  induction n using grownLen_induction id with
  | inside n h => rwa [grownLen_of_lt h]
  | outside n h ih => rwa [grownLen_of_le h]

theorem le_grownLen (id n : ℕ) : n ≤ grownLen id n := by
  induction n using grownLen_induction id with
  | inside n h => exact Nat.le_of_eq (grownLen_of_lt h).symm
  | outside n h ih =>
    rw [grownLen_of_le h]
    exact Nat.le_trans (Nat.le_of_lt (lt_doubled n)) ih

theorem grownLen_le (id n : ℕ) : grownLen id n ≤ max n (2 * id + 1) := by
  induction n using grownLen_induction id with
  | inside n h =>
    rw [grownLen_of_lt h]
    exact Nat.le_max_left _ _
  | outside n h ih =>
    rw [grownLen_of_le h]
    have := doubled_le n
    omega

theorem grownLen_grownLen (i j n : ℕ) : grownLen j (grownLen i n) = max (grownLen i n) (grownLen j n) := by
  induction n using grownLen_induction i with
  | inside n h => rw [grownLen_of_lt h, Nat.max_eq_right (le_grownLen j n)]
  | outside n h ih =>
    rw [grownLen_of_le h, ih]
    by_cases hj : j < n
    · have hlt := lt_doubled n
      have hle := le_grownLen i (doubled n)
      rw [grownLen_of_lt hj, grownLen_of_lt (Nat.lt_trans hj hlt)]
      omega
    · rw [← grownLen_of_le (Nat.le_of_not_lt hj)]

/-! ## Entries -/

section Entries

variable {α : Type*} (zero : α) (id : ℕ)

theorem growIn_length (f : ℕ) (l : List α) : (growIn zero id f l).length = grownLenIn id f l.length := by
  induction f generalizing l with
  | zero => rfl
  | succ f ih =>
    unfold growIn grownLenIn
    split
    · have hlt := lt_doubled l.length
      rw [ih, length_append, length_replicate]
      congr 1
      omega
    · rfl

theorem grow_length (l : List α) : (grow zero id l).length = grownLen id l.length :=
  growIn_length zero id _ l

theorem growIn_append (f : ℕ) (l : List α) : ∃ k, growIn zero id f l = l ++ replicate k zero := by
  induction f generalizing l with
  | zero => exact ⟨0, (append_nil l).symm⟩
  | succ f ih =>
    unfold growIn
    split
    · obtain ⟨k, hk⟩ := ih (l ++ replicate (doubled l.length - l.length) zero)
      exact ⟨_, by rw [hk, append_assoc, replicate_append_replicate]⟩
    · exact ⟨0, (append_nil l).symm⟩

theorem grow_append (l : List α) : ∃ k, grow zero id l = l ++ replicate k zero :=
  growIn_append zero id _ l

theorem grow_none_join {β : Type*} (l : List (Option β)) (j : ℕ) :
    ((grow none id l)[j]?).join = (l[j]?).join := by
  obtain ⟨k, hk⟩ := grow_append none id l
  rw [hk, List.getElem?_append]
  split
  · rfl
  · rename_i hj
    rw [List.getElem?_replicate, List.getElem?_eq_none (Nat.le_of_not_lt hj)]
    split <;> rfl

end Entries

end Osol.Lib
