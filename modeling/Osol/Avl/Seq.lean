import Mathlib

/-!
# AVL trees as ordered sequences

What a client of `common/avl/avl.c` sees: the nodes of a tree in order. An
`avl_index_t` is the position of the gap where an absent key would go, and the
operations name nodes by address, so that a node may be re-keyed in place.
A search compares the key with nodes from the left until a node is not before it.
-/

namespace Osol.Avl

open List

variable {ι : Type*}

/-- `AVL_BEFORE` and `AVL_AFTER`. -/
inductive Dir where
  | before
  | after
  deriving DecidableEq

/-- `avl_find`: the node that compares equal, and the gap where the search ended. -/
def avlFind (cmp : ι → Ordering) : List ι → Option ι × ℕ
  | [] => (none, 0)
  | i :: l =>
    match cmp i with
    | .lt => (none, 0)
    | .eq => (some i, 0)
    | .gt => ((avlFind cmp l).1, (avlFind cmp l).2 + 1)

def avlNearest (l : List ι) (gap : ℕ) : Dir → Option ι
  | .before => if gap = 0 then none else l[gap - 1]?
  | .after => l[gap]?

def avlInsert (l : List ι) (x : ι) (gap : ℕ) : List ι := l.insertIdx gap x

/-- `avl_add`: panics when an equal node is present. -/
def avlAdd (cmp : ι → ι → Ordering) (l : List ι) (x : ι) : Option (List ι) :=
  match avlFind (cmp x) l with
  | (some _, _) => none
  | (none, gap) => some (avlInsert l x gap)

section

variable [DecidableEq ι]

def avlRemove (l : List ι) (x : ι) : List ι := l.erase x

/-- `avl_insert_here`: next to a member node. -/
def avlInsertHere (l : List ι) (x here : ι) : Dir → List ι
  | .before => l.insertIdx (l.idxOf here) x
  | .after => l.insertIdx (l.idxOf here + 1) x

end

/-! ## Search -/

variable {cmp : ι → Ordering} {l l1 l2 : List ι}

theorem avlFind_append (h : ∀ i ∈ l1, cmp i = .gt) :
    avlFind cmp (l1 ++ l2) = ((avlFind cmp l2).1, l1.length + (avlFind cmp l2).2) := by
  induction l1 with
  | nil => simp
  | cons i l1 ih =>
    have hi : cmp i = .gt := h i (by simp)
    have ih := ih fun j hj => h j (by simp [hj])
    simp only [cons_append, avlFind, hi, ih, length_cons]
    congr 1
    omega

theorem avlFind_split (h₁ : ∀ i ∈ l1, cmp i = .gt) (h₂ : ∀ i ∈ l2, cmp i = .lt) :
    avlFind cmp (l1 ++ l2) = (none, l1.length) := by
  rw [avlFind_append h₁]
  cases l2 with
  | nil => simp [avlFind]
  | cons i l2 => simp [avlFind, h₂ i (by simp)]

variable {i : ι}

theorem mem_of_avlFind (h : (avlFind cmp l).1 = some i) : i ∈ l ∧ cmp i = .eq := by
  induction l with
  | nil => simp [avlFind] at h
  | cons j l ih =>
    unfold avlFind at h
    split at h
    · simp at h
    · next hj =>
      have hij : j = i := by simpa using h
      exact hij ▸ ⟨by simp, hj⟩
    · obtain ⟨hl, he⟩ := ih h
      exact ⟨by simp [hl], he⟩

theorem avlFind_isSome (hp : l.Pairwise fun i j => cmp i = .lt → cmp j = .lt)
    (h : ∃ i ∈ l, cmp i = .eq) : ∃ j, (avlFind cmp l).1 = some j := by
  induction l with
  | nil => simp at h
  | cons k l ih =>
    obtain ⟨i, hi, he⟩ := h
    obtain ⟨hk, hl⟩ := pairwise_cons.1 hp
    unfold avlFind
    split
    · next hlt =>
      rcases mem_cons.1 hi with rfl | hi
      · simp [hlt] at he
      · simp [hk i hi hlt] at he
    · exact ⟨k, rfl⟩
    · next hgt =>
      rcases mem_cons.1 hi with rfl | hi
      · simp [hgt] at he
      · exact ih hl ⟨i, hi, he⟩

/-! ## Neighbours and insertion at a gap -/

theorem avlNearest_before : avlNearest (l1 ++ l2) l1.length .before = l1.getLast? := by
  rcases eq_nil_or_concat l1 with rfl | ⟨l, i, rfl⟩ <;> simp [avlNearest]

theorem avlNearest_after : avlNearest (l1 ++ l2) l1.length .after = l2.head? := by
  cases l2 <;> simp [avlNearest]

theorem avlInsert_split (x : ι) : avlInsert (l1 ++ l2) x l1.length = l1 ++ x :: l2 := by
  induction l1 with
  | nil => simp [avlInsert]
  | cons i l1 ih => simpa [avlInsert] using ih

section

variable [DecidableEq ι]

theorem avlRemove_middle (h : i ∉ l1) : avlRemove (l1 ++ i :: l2) i = l1 ++ l2 := by
  rw [avlRemove, erase_append_right _ h, erase_cons_head]

theorem avlInsertHere_after (x : ι) (h : i ∉ l1) :
    avlInsertHere (l1 ++ i :: l2) x i .after = l1 ++ i :: x :: l2 := by
  have hidx : (l1 ++ i :: l2).idxOf i = l1.length := by rw [idxOf_append_of_notMem h]; simp
  have hins : avlInsert (l1 ++ [i] ++ l2) x (l1 ++ [i]).length = _ := avlInsert_split x
  simp only [length_append, length_singleton, append_assoc, singleton_append] at hins
  rwa [avlInsertHere, hidx]

end

/-! ## Keyed insertion -/

theorem exists_split_of_sorted {r : ι → ι → Prop} {x : ι} (ht : ∀ i ∈ l, r x i ∨ r i x)
    (htr : ∀ i ∈ l, ∀ j ∈ l, r x i → r i j → r x j) (hs : l.Pairwise r) :
    ∃ l1 l2, l = l1 ++ l2 ∧ (∀ i ∈ l1, r i x) ∧ ∀ i ∈ l2, r x i := by
  induction l with
  | nil => exact ⟨[], [], rfl, by simp, by simp⟩
  | cons k l ih =>
    obtain ⟨hk, hl⟩ := pairwise_cons.1 hs
    rcases ht k (by simp) with hxk | hkx
    · refine ⟨[], k :: l, rfl, by simp, fun i hi => ?_⟩
      rcases mem_cons.1 hi with rfl | hi
      · exact hxk
      · exact htr k (by simp) i (by simp [hi]) hxk (hk i hi)
    obtain ⟨l1, l2, rfl, h1, h2⟩ := ih (fun i hi => ht i (by simp [hi]))
      (fun i hi j hj => htr i (by simp [hi]) j (by simp [hj])) hl
    refine ⟨k :: l1, l2, rfl, fun i hi => ?_, h2⟩
    rcases mem_cons.1 hi with rfl | hi
    · exact hkx
    · exact h1 i hi

theorem avlAdd_sorted (cmp : ι → ι → Ordering) (r : ι → ι → Prop) (x : ι)
    (hlt : ∀ i ∈ l, r x i → cmp x i = .lt) (hgt : ∀ i ∈ l, r i x → cmp x i = .gt)
    (ht : ∀ i ∈ l, r x i ∨ r i x) (htr : ∀ i ∈ l, ∀ j ∈ l, r x i → r i j → r x j)
    (hs : l.Pairwise r) :
    ∃ l', avlAdd cmp l x = some l' ∧ l'.Perm (x :: l) ∧ l'.Pairwise r := by
  obtain ⟨l1, l2, rfl, h1, h2⟩ := exists_split_of_sorted ht htr hs
  have hf : avlFind (cmp x) (l1 ++ l2) = (none, l1.length) :=
    avlFind_split (fun i hi => hgt i (by simp [hi]) (h1 i hi))
      (fun i hi => hlt i (by simp [hi]) (h2 i hi))
  refine ⟨l1 ++ x :: l2, by simp [avlAdd, hf, avlInsert_split], perm_middle, ?_⟩
  rw [pairwise_append] at hs ⊢
  refine ⟨hs.1, pairwise_cons.2 ⟨h2, hs.2.1⟩, fun i hi j hj => ?_⟩
  rcases mem_cons.1 hj with rfl | hj
  · exact h1 i hi
  · exact hs.2.2 i hi j hj

end Osol.Avl
