import Osol.Flock.List

/-!
# Executing a request

The loop of `flk_execute_request` walks along the list with the request. What it keeps is the
ownership of the owner's bytes with the request laid over the locks (`View`): a lock that the
request takes over, or that is split, is no longer needed for a byte that the request has.
When the walk is over no lock of the owner overlaps the request, and the request can be put
into the list.
-/

namespace Osol.Flock

open Osol.Lib List Nat

variable {g : Graph} {l l' A B : List Lock} {lock new r : Lock}

/-! ## Ranges -/

def Lock.Has (x : Lock) (p : ℕ) : Prop := x.lStart ≤ p ∧ p ≤ x.lEnd

instance (x : Lock) (p : ℕ) : Decidable (x.Has p) := inferInstanceAs (Decidable (_ ∧ _))

/-- A range as there can be one. -/
structure Lock.Valid (x : Lock) : Prop where
  le : x.lStart ≤ x.lEnd
  lt : x.lEnd < 2 ^ 64

variable {x y : Lock}

theorem overlap_iff (hx : x.Valid) (hy : y.Valid) : Overlap x y ↔ ∃ p, x.Has p ∧ y.Has p := by
  have := hx.le
  have := hy.le
  unfold Overlap Lock.Has
  constructor
  · rintro (h | h)
    · exact ⟨y.lStart, by omega⟩
    · exact ⟨x.lStart, by omega⟩
  · omega

/-- What the cases of `flk_relation` come to: the request has the bytes of both, or the pieces
are what is left of the lock. -/
def RelationSpec (lock r : Lock) : Relation → Prop
  | .apart done => (∀ p, ¬ (lock.Has p ∧ r.Has p)) ∧ (done = true → r.lEnd < lock.lStart)
  | .absorb start lend => start ≤ lend ∧ lend < 2 ^ 64 ∧
      (∀ p, start ≤ p ∧ p ≤ lend ↔ r.Has p ∨ lock.Has p) ∧
      ∀ p, lock.Has p → ¬ r.Has p → lock.lType = r.lType
  | .split pieces => Overlap lock r ∧ pieces.length ≤ 2 ∧
      pieces.Pairwise (fun a b => a.2 < b.1) ∧ (∀ a ∈ pieces, a.1 ≤ a.2) ∧
      ∀ p, (∃ a ∈ pieces, a.1 ≤ p ∧ p ≤ a.2) ↔ lock.Has p ∧ ¬ r.Has p
  | .remove => r.lType = .unlck ∧ lock.lStart = r.lStart ∧ lock.lEnd = r.lEnd

theorem type_eq_of_staySame (hl : lock.lType ≠ .unlck) (h : lockEffect lock r = .staySame) :
    lock.lType = r.lType := by
  unfold lockEffect at h
  cases hlt : lock.lType <;> cases hrt : r.lType <;> simp_all

theorem type_eq_of_unlock (h : lockEffect lock r = .unlock) : r.lType = .unlck := by
  unfold lockEffect at h
  cases hlt : lock.lType <;> cases hrt : r.lType <;> simp_all

theorem right_spec (hl : lock.Valid) (hs : r.lStart ≤ lock.lStart) (hin : lock.lStart ≤ r.lEnd)
    (he : r.lEnd < lock.lEnd) : RelationSpec lock r (.split [(uadd r.lEnd 1, lock.lEnd)]) := by
  obtain ⟨hl1, hl2⟩ := hl
  rw [uadd_of_lt (by omega)]
  refine ⟨by unfold Overlap; omega, by simp, pairwise_singleton _ _, by simp; omega, fun p => ?_⟩
  simp only [mem_singleton, exists_eq_left]
  unfold Lock.Has
  omega

theorem left_spec (hr : r.Valid) (hs : lock.lStart < r.lStart) (hin : r.lStart ≤ lock.lEnd)
    (he : lock.lEnd ≤ r.lEnd) : RelationSpec lock r (.split [(lock.lStart, usub r.lStart 1)]) := by
  obtain ⟨hr1, hr2⟩ := hr
  rw [usub_of_le (by omega) (by omega)]
  refine ⟨by unfold Overlap; omega, by simp, pairwise_singleton _ _, by simp; omega, fun p => ?_⟩
  simp only [mem_singleton, exists_eq_left]
  unfold Lock.Has
  omega

section Cases

variable (hl : lock.Valid) (hr : r.Valid)
include hl hr

theorem absorb_spec {start lend : ℕ} (hs : start = min lock.lStart r.lStart)
    (he : lend = max lock.lEnd r.lEnd) (htouch : lock.lStart ≤ r.lEnd + 1 ∧ r.lStart ≤ lock.lEnd + 1)
    (ht : lock.lType = r.lType ∨ r.lStart ≤ lock.lStart ∧ lock.lEnd ≤ r.lEnd) :
    RelationSpec lock r (.absorb start lend) := by
  obtain ⟨hl1, hl2⟩ := hl
  obtain ⟨hr1, hr2⟩ := hr
  refine ⟨by omega, by omega, fun p => ?_, fun p hp hn => ht.resolve_right fun h => ?_⟩
  · unfold Lock.Has
    omega
  · unfold Lock.Has at hp hn
    omega

theorem both_spec (hs : lock.lStart < r.lStart) (he : r.lEnd < lock.lEnd) : RelationSpec lock r
      (.split [(lock.lStart, usub r.lStart 1), (uadd r.lEnd 1, lock.lEnd)]) := by
  obtain ⟨hl1, hl2⟩ := hl
  obtain ⟨hr1, hr2⟩ := hr
  rw [usub_of_le (by omega) (by omega), uadd_of_lt (by omega)]
  refine ⟨by unfold Overlap; omega, Nat.le_refl _, by simp; omega, by simp; omega, fun p => ?_⟩
  simp only [mem_cons, not_mem_nil, or_false, exists_eq_or_imp, exists_eq_left]
  unfold Lock.Has
  omega

theorem relate_spec (ht : lock.lType ≠ .unlck) : RelationSpec lock r (relate lock r) := by
  have hl' := hl
  have hr' := hr
  obtain ⟨hl1, hl2⟩ := hl'
  obtain ⟨hr1, hr2⟩ := hr'
  have hsame := type_eq_of_staySame (r := r) ht
  have hunl : lockEffect lock r = .unlock → r.lType = .unlck := type_eq_of_unlock
  unfold relate
  generalize lockEffect lock r = eff at *
  by_cases h1 : lock.lEnd < r.lStart
  · rw [if_pos h1, usub_of_le (by omega) (by omega)]
    split_ifs with h
    · exact absorb_spec hl hr (by omega) (by omega) (by omega) (.inl (hsame h.2))
    · exact ⟨fun p => by unfold Lock.Has; omega, fun h => nomatch h⟩
  rw [if_neg h1]
  by_cases h2 : r.lEnd < lock.lStart
  · rw [if_pos h2, usub_of_le (by omega) (by omega)]
    split_ifs with h
    · exact absorb_spec hl hr (by omega) (by omega) (by omega) (.inl (hsame h.2))
    · exact ⟨fun p => by unfold Lock.Has; omega, fun _ => h2⟩
  have absorbed : ∀ {start lend : ℕ}, eff = .staySame → start = min lock.lStart r.lStart →
      lend = max lock.lEnd r.lEnd → RelationSpec lock r (.absorb start lend) := fun h hs he =>
    absorb_spec hl hr hs he (by omega) (.inl (hsame h))
  have covered : r.lStart ≤ lock.lStart → lock.lEnd ≤ r.lEnd →
      RelationSpec lock r (.absorb r.lStart r.lEnd) := fun hs he =>
    absorb_spec hl hr (by omega) (by omega) (by omega) (.inr ⟨hs, he⟩)
  by_cases h3 : r.lEnd < lock.lEnd
  · split_ifs with hs h hs' h h
    · exact absorbed h (by omega) (by omega)
    · exact both_spec hl hr hs h3
    · exact absorbed h (by omega) (by omega)
    · exact right_spec hl (by omega) (by omega) h3
    · exact absorbed h (by omega) (by omega)
    · exact right_spec hl (by omega) (by omega) h3
  split_ifs with h4 hs h hs h hs' h
  · exact absorbed h (by omega) (by omega)
  · exact left_spec hr hs (by omega) (by omega)
  · exact covered (by omega) (by omega)
  · exact absorbed h (by omega) (by omega)
  · exact left_spec hr hs (by omega) (by omega)
  · exact covered (by omega) (by omega)
  · exact covered (by omega) (by omega)
  · exact ⟨hunl (not_not.1 h), by omega, by omega⟩

end Cases

/-! ## Ownership -/

def Own (r x : Lock) : Prop := x.lVnode = r.lVnode ∧ SameOwner r x

instance (r x : Lock) : Decidable (Own r x) := inferInstanceAs (Decidable (_ ∧ _))

theorem SameOwner.symm (h : SameOwner x y) : SameOwner y x := ⟨h.1.symm, h.2.symm⟩

theorem overlap_comm : Overlap x y ↔ Overlap y x := Or.comm

/-- The locks of one owner do not overlap; of those of different owners only read locks do. -/
structure Sound (l : List Lock) : Prop where
  valid : ∀ x ∈ l, x.Valid ∧ x.lType ≠ .unlck
  own : ∀ x ∈ l, ∀ y ∈ l, Own x y → x ≠ y → ¬ Overlap x y
  others : ∀ x ∈ l, ∀ y ∈ l, y.lVnode = x.lVnode → ¬ SameOwner x y → Overlap x y →
    x.lType = .rdlck ∧ y.lType = .rdlck

structure FitsIn (n : Lock) (l : List Lock) : Prop where
  valid : n.Valid
  type : n.lType ≠ .unlck
  own : ∀ x ∈ l, Own n x → ¬ Overlap n x
  others : ∀ x ∈ l, x.lVnode = n.lVnode → ¬ SameOwner n x → Overlap n x →
    n.lType = .rdlck ∧ x.lType = .rdlck

theorem Sound.insert (h : Sound (A ++ B)) (hn : FitsIn new (A ++ B)) : Sound (A ++ new :: B) := by
  have hmem : ∀ x, x ∈ A ++ new :: B → x = new ∨ x ∈ A ++ B := fun x hx => by
    rw [perm_middle.mem_iff] at hx
    exact mem_cons.1 hx
  refine ⟨fun x hx => ?_, fun x hx y hy ho hne => ?_, fun x hx y hy hv ho hov => ?_⟩
  · rcases hmem x hx with rfl | hx
    · exact ⟨hn.valid, hn.type⟩
    · exact h.valid x hx
  · rcases hmem x hx with rfl | hx' <;> rcases hmem y hy with rfl | hy'
    · exact absurd rfl hne
    · exact hn.own y hy' ho
    · exact fun hov => hn.own x hx' ⟨ho.1.symm, ho.2.symm⟩ (overlap_comm.1 hov)
    · exact h.own x hx' y hy' ho hne
  · rcases hmem x hx with rfl | hx' <;> rcases hmem y hy with rfl | hy'
    · exact absurd ⟨rfl, rfl⟩ ho
    · exact hn.others y hy' hv ho hov
    · exact (hn.others x hx' hv.symm (fun h => ho h.symm) (overlap_comm.1 hov)).symm
    · exact h.others x hx' y hy' hv ho hov

theorem Sound.mono (h : Sound l) (hs : ∀ x ∈ l', x ∈ l) : Sound l' :=
  ⟨fun x hx => h.valid x (hs x hx), fun x hx y hy => h.own x (hs x hx) y (hs y hy),
    fun x hx y hy => h.others x (hs x hx) y (hs y hy)⟩

theorem FitsIn.part {n : Lock} (h : FitsIn lock l) (hv : n.lVnode = lock.lVnode)
    (hp : n.lPid = lock.lPid) (hs : n.lSysid = lock.lSysid) (ht : n.lType = lock.lType)
    (hn : n.Valid) (h1 : lock.lStart ≤ n.lStart) (h2 : n.lEnd ≤ lock.lEnd) (hl : ∀ x ∈ l, x.Valid) :
    FitsIn n l := by
  have hov : ∀ x ∈ l, Overlap n x → Overlap lock x := fun x hx ho => by
    rw [overlap_iff hn (hl x hx)] at ho
    obtain ⟨p, hp1, hp2⟩ := ho
    rw [overlap_iff h.valid (hl x hx)]
    exact ⟨p, ⟨Nat.le_trans h1 hp1.1, Nat.le_trans hp1.2 h2⟩, hp2⟩
  have howner : ∀ x, SameOwner n x ↔ SameOwner lock x := fun x => by
    unfold SameOwner
    rw [hp, hs]
  refine ⟨hn, ht ▸ h.type, fun x hx ho => fun hc => ?_, fun x hx hvx ho hc => ?_⟩
  · exact h.own x hx ⟨hv ▸ ho.1, (howner x).1 ho.2⟩ (hov x hx hc)
  · rw [ht]
    exact h.others x hx (hv ▸ hvx) (fun hso => ho ((howner x).2 hso)) (hov x hx hc)

def Held (l : List Lock) (r : Lock) (p : ℕ) (ty : LockType) : Prop :=
  ∃ x ∈ l, Own r x ∧ x.Has p ∧ x.lType = ty

theorem held_insert {p : ℕ} {ty : LockType} (hn : Own r new) :
    Held (A ++ new :: B) r p ty ↔ Held (A ++ B) r p ty ∨ new.Has p ∧ new.lType = ty := by
  unfold Held
  simp only [perm_middle.mem_iff, mem_cons, or_and_right, exists_or, exists_eq_left]
  constructor
  · rintro (⟨-, h⟩ | h)
    · exact .inr h
    · exact .inl h
  · rintro (h | h)
    · exact .inr h
    · exact .inl ⟨hn, h⟩

/-- What the owner has where the request is laid over the locks. -/
def View (l : List Lock) (r : Lock) (p : ℕ) (ty : LockType) : Prop :=
  if r.Has p then r.lType ≠ .unlck ∧ ty = r.lType else Held l r p ty

/-! ## The walk -/

/-- The state of the loop: the list `l`, of which `seen` is behind, and the request, both as
they have come about from `l0` and `r0`. -/
structure Searching (l0 : List Lock) (r0 : Lock) (l seen : List Lock) (r : Lock) : Prop where
  sound : Sound l
  valid : r.Valid
  same : r = r0.withRange r.lStart r.lEnd
  free : r.lType ≠ .unlck → ∀ x ∈ l, x.lVnode = r.lVnode → ¬ SameOwner r x → Overlap r x →
    r.lType = .rdlck ∧ x.lType = .rdlck
  seen : ∀ x ∈ seen, Own r x → ¬ Overlap r x
  view : ∀ p ty, View l r p ty ↔ View l0 r0 p ty
  others : l.filter (fun x => ¬ Own r0 x) = l0.filter (fun x => ¬ Own r0 x)

/-- A lock that the request overlaps can still leave two pieces. -/
def weight (r : Lock) (l : List Lock) : ℕ :=
  (l.map fun x => if Own r x ∧ Overlap r x then 3 else 1).sum

theorem weight_cons (r x : Lock) (l : List Lock) :
    weight r (x :: l) = (if Own r x ∧ Overlap r x then 3 else 1) + weight r l := rfl

theorem weight_middle (r x : Lock) (A B : List Lock) :
    weight r (A ++ x :: B) = (if Own r x ∧ Overlap r x then 3 else 1) + weight r (A ++ B) := by
  simp only [weight, map_append, map_cons, sum_append_nat, sum_cons]
  omega

theorem weight_le (r : Lock) (l : List Lock) : weight r l ≤ 3 * l.length := by
  induction l with
  | nil => exact Nat.le_refl _
  | cons x l ih =>
    rw [weight_cons, length_cons]
    split <;> omega

theorem weight_mono {r r' : Lock} (h : ∀ x ∈ l, Own r' x → Overlap r' x → Own r x ∧ Overlap r x) :
    weight r' l ≤ weight r l := by
  induction l with
  | nil => exact Nat.le_refl _
  | cons x l ih =>
    have := ih fun y hy => h y (mem_cons_of_mem x hy)
    rw [weight_cons, weight_cons]
    by_cases hx : Own r' x ∧ Overlap r' x
    · rw [if_pos hx, if_pos (h x mem_cons_self hx.1 hx.2)]
      omega
    · rw [if_neg hx]
      split <;> omega

theorem insert_at {seen R : List Lock} (h : Ordered g) (hl : g.active = seen ++ R)
    (hnew : new.id < g.nextId) (hne : ∀ x ∈ g.active, x.id ≠ new.id) :
    ∃ seen' R', (flkInsertActiveLock g new).active = seen' ++ R' ∧ R'.head? = R.head? ∧
      ((∃ a b, seen = a ++ b ∧ seen' = a ++ new :: b ∧ R' = R) ∨
        ∃ a b, R = a ++ b ∧ R' = a ++ new :: b ∧ seen' = seen) := by
  obtain ⟨-, -, A, B, h1, h2⟩ := insert_ordered h hnew hne
  rcases append_eq_append_iff.1 (hl.symm.trans h1) with ⟨c, hA, hR⟩ | ⟨c, hseen, hB⟩
  · rcases c with _ | ⟨x, c⟩
    · refine ⟨seen ++ [new], R, ?_, rfl, .inl ⟨seen, [], by simp, rfl, rfl⟩⟩
      rw [h2, hA, hR]
      simp
    · refine ⟨seen, x :: c ++ new :: B, ?_, ?_, .inr ⟨x :: c, B, hR, rfl, rfl⟩⟩
      · rw [h2, hA]
        simp
      · rw [hR]
        rfl
  · refine ⟨A ++ new :: c, R, ?_, rfl, .inl ⟨A, c, hseen, rfl, rfl⟩⟩
    rw [h2, hB]
    simp

/-! ## Pieces -/

def IsPiece (r : Lock) (pieces : List (ℕ × ℕ)) (x : Lock) : Prop :=
  Own r x ∧ ∃ a ∈ pieces, x.lStart = a.1 ∧ x.lEnd = a.2

structure Placed (lock r : Lock) (pieces : List (ℕ × ℕ)) (g g' : Graph)
    (seen R seen' R' : List Lock) : Prop where
  ordered : Ordered g'
  active : g'.active = seen' ++ R'
  head : R'.head? = R.head?
  seen_mem : ∀ x ∈ seen', x ∈ seen ∨ IsPiece r pieces x
  rest_mem : ∀ x ∈ R', x ∈ R ∨ IsPiece r pieces x
  ids : ∀ x ∈ g'.active, x ∈ g.active ∨ g.nextId ≤ x.id
  nextId : g.nextId ≤ g'.nextId
  sound : Sound g'.active
  held : ∀ p ty, Held g'.active r p ty ↔
    Held g.active r p ty ∨ (∃ a ∈ pieces, a.1 ≤ p ∧ p ≤ a.2) ∧ lock.lType = ty
  others : g'.active.filter (fun x => ¬ Own r x) = g.active.filter (fun x => ¬ Own r x)
  weight_le : weight r R' ≤ weight r R + pieces.length

theorem IsPiece.cons {pieces : List (ℕ × ℕ)} (a : ℕ × ℕ) (h : IsPiece r pieces x) :
    IsPiece r (a :: pieces) x := by
  obtain ⟨ho, b, hb, hx⟩ := h
  exact ⟨ho, b, mem_cons_of_mem a hb, hx⟩

theorem filter_own (hx : Own r x) (A B : List Lock) :
    (A ++ x :: B).filter (fun x => ¬ Own r x) = (A ++ B).filter (fun x => ¬ Own r x) := by
  rw [filter_append, filter_append, filter_cons_of_neg (by simpa using hx)]

theorem insertPieces_placed (hown : Own r lock) : ∀ (pieces : List (ℕ × ℕ)) (g : Graph)
    (seen R : List Lock), Ordered g → g.active = seen ++ R → Sound g.active →
    (∀ a ∈ pieces, ∀ id, FitsIn (pieceOf lock id a) g.active) →
    pieces.Pairwise (fun a b => a.2 < b.1) →
    (∀ a ∈ pieces, ∀ p, a.1 ≤ p → p ≤ a.2 → ¬ r.Has p) → r.Valid →
    ∃ seen' R', Placed lock r pieces g (insertPieces lock pieces g) seen R seen' R' := by
  intro pieces
  induction pieces with
  | nil =>
    intro g seen R ho hl hs _ _ _ _
    exact ⟨seen, R, ho, hl, rfl, fun _ hx => .inl hx, fun _ hx => .inl hx, fun _ hx => .inl hx,
      Nat.le_refl _, hs, by simp [insertPieces], rfl, Nat.le_refl _⟩
  | cons a pieces ih =>
    intro g seen R ho hl hs hfit hpw hclear hr
    obtain ⟨hpw1, hpw2⟩ := pairwise_cons.1 hpw
    have hfita := hfit a mem_cons_self g.nextId
    have hown' : Own r (pieceOf lock g.nextId a) := hown
    have ho1 : Ordered { g with nextId := g.nextId + 1 } :=
      { ho with fresh := fun x hx => lt_succ_of_lt (ho.fresh x hx) }
    have hne : ∀ x ∈ g.active, x.id ≠ (pieceOf lock g.nextId a).id :=
      fun x hx => Nat.ne_of_lt (ho.fresh x hx)
    obtain ⟨ho2, hid, A, B, hAB, hins⟩ := insert_ordered ho1 (lt_succ_self g.nextId) hne
    obtain ⟨seen1, R1, hl1, hhead, hpos⟩ := insert_at ho1 hl (lt_succ_self g.nextId) hne
    have hs2 : Sound (flkInsertActiveLock { g with nextId := g.nextId + 1 }
        (pieceOf lock g.nextId a)).active := by
      rw [hins]
      exact Sound.insert (hAB ▸ hs) (hAB ▸ hfita)
    have hmem : ∀ x, x ∈ (flkInsertActiveLock { g with nextId := g.nextId + 1 }
        (pieceOf lock g.nextId a)).active → x = pieceOf lock g.nextId a ∨ x ∈ g.active := by
      intro x hx
      rwa [hins, perm_middle.mem_iff, mem_cons, ← hAB] at hx
    have hfit2 : ∀ b ∈ pieces, ∀ id, FitsIn (pieceOf lock id b)
        (flkInsertActiveLock { g with nextId := g.nextId + 1 } (pieceOf lock g.nextId a)).active := by
      intro b hb id
      have hfitb := hfit b (mem_cons_of_mem a hb) id
      refine ⟨hfitb.valid, hfitb.type, fun x hx hox => ?_, fun x hx hv hso hov => ?_⟩
      · rcases hmem x hx with rfl | hx
        · have hlt := hpw1 b hb
          have h1 : a.1 ≤ a.2 := hfita.valid.le
          show ¬ ((b.1 ≤ a.1 ∧ a.1 ≤ b.2) ∨ (a.1 ≤ b.1 ∧ b.1 ≤ a.2))
          omega
        · exact hfitb.own x hx hox
      · rcases hmem x hx with rfl | hx
        · exact absurd ⟨rfl, rfl⟩ hso
        · exact hfitb.others x hx hv hso hov
    obtain ⟨seen', R', hp⟩ := ih _ seen1 R1 ho2 hl1 hs2 hfit2 hpw2
      (fun b hb => hclear b (mem_cons_of_mem a hb)) hr
    have hpiece : IsPiece r (a :: pieces) (pieceOf lock g.nextId a) := ⟨hown, a, mem_cons_self, rfl, rfl⟩
    have hnov : ¬ Overlap r (pieceOf lock g.nextId a) := by
      rw [overlap_iff hr hfita.valid]
      rintro ⟨p, h1, h2⟩
      exact hclear a mem_cons_self p h2.1 h2.2 h1
    have hweight : weight r R1 ≤ weight r R + 1 := by
      rcases hpos with ⟨c, d, -, -, rfl⟩ | ⟨c, d, rfl, rfl, -⟩
      · omega
      · rw [weight_middle, if_neg fun h => hnov h.2]
        omega
    refine ⟨seen', R', hp.ordered, hp.active, hp.head.trans hhead, fun x hx => ?_, fun x hx => ?_,
      fun x hx => ?_, ?_, hp.sound, fun p ty => ?_, ?_, ?_⟩
    · rcases hp.seen_mem x hx with hx | hx
      · rcases hpos with ⟨c, d, rfl, rfl, -⟩ | ⟨c, d, -, -, rfl⟩
        · rw [perm_middle.mem_iff] at hx
          rcases mem_cons.1 hx with rfl | hx
          · exact .inr hpiece
          · exact .inl hx
        · exact .inl hx
      · exact .inr (hx.cons a)
    · rcases hp.rest_mem x hx with hx | hx
      · rcases hpos with ⟨c, d, -, -, rfl⟩ | ⟨c, d, rfl, rfl, -⟩
        · exact .inl hx
        · rw [perm_middle.mem_iff] at hx
          rcases mem_cons.1 hx with rfl | hx
          · exact .inr hpiece
          · exact .inl hx
      · exact .inr (hx.cons a)
    · rcases hp.ids x hx with hx | hx
      · rcases hmem x hx with rfl | hx
        · exact .inr (Nat.le_refl _)
        · exact .inl hx
      · rw [hid] at hx
        exact .inr (le_of_succ_le hx)
    · have := hp.nextId
      rw [hid] at this
      exact le_of_succ_le this
    · show Held (insertPieces lock pieces _).active r p ty ↔ _
      rw [hp.held, hins, held_insert hown', ← hAB]
      simp only [mem_cons, exists_eq_or_imp, Lock.Has, pieceOf]
      tauto
    · show (insertPieces lock pieces _).active.filter _ = _
      rw [hp.others, hins, filter_own hown', hAB]
    · have := hp.weight_le
      rw [length_cons]
      omega

/-! ## One lock -/

/-- What one turn of the loop makes of the state, where `R` was still ahead. -/
structure Stepped (l0 : List Lock) (r0 : Lock) (g g' : Graph) (r' : Lock) (done : Bool)
    (R seen' R' : List Lock) (w : ℕ) : Prop where
  ordered : Ordered g'
  active : g'.active = seen' ++ R'
  head : R'.head? = R.head?
  searching : Searching l0 r0 g'.active seen' r'
  rest : ∀ x ∈ R', Own r' x → x ∈ R ∨ ¬ Overlap r' x
  done : done = true → ∀ x ∈ R', Own r' x → ¬ Overlap r' x
  ids : ∀ x ∈ g'.active, x ∈ g.active ∨ g.nextId ≤ x.id
  nextId : g.nextId ≤ g'.nextId
  weight_lt : weight r' R' < w

section Step

variable {l0 seen R : List Lock} {r0 : Lock} (ho : Ordered g) (hl : g.active = seen ++ lock :: R)
  (hs : Searching l0 r0 g.active seen r)
include ho hl hs

omit ho hl in
theorem own_iff (x : Lock) : Own r x ↔ Own r0 x := by
  have h := hs.same
  rw [h]
  rfl

omit hs in
theorem ne_of_mem (hx : x ∈ seen ++ R) : x ≠ lock := by
  have hne := id_ne_of_nodup (hl ▸ ho.nodup)
  rintro rfl
  rcases mem_append.1 hx with hx | hx
  · exact hne.1 x hx rfl
  · exact hne.2 x hx rfl

omit ho in
theorem lock_valid : lock.Valid ∧ lock.lType ≠ .unlck := hs.sound.valid lock (by simp [hl])

omit ho hs in
theorem mem_active (hx : x ∈ seen ++ R) : x ∈ g.active := by
  rw [hl, perm_middle.mem_iff]
  exact mem_cons_of_mem _ hx

theorem not_has_of_lock (hown : Own r lock) (hx : x ∈ seen ++ R) (hox : Own r x) {p : ℕ}
    (hp : lock.Has p) : ¬ x.Has p := by
  intro hxp
  have hxa := mem_active hl hx
  refine hs.sound.own lock (by simp [hl]) x hxa
    ⟨hox.1.trans hown.1.symm, hown.2.1.symm.trans hox.2.1, hown.2.2.symm.trans hox.2.2⟩
    (Ne.symm (ne_of_mem ho hl hx)) ?_
  rw [overlap_iff (lock_valid hl hs).1 (hs.sound.valid x hxa).1]
  exact ⟨p, hp, hxp⟩

omit ho hs in
theorem held_lock (hown : Own r lock) (p : ℕ) (ty : LockType) :
    Held g.active r p ty ↔ Held (seen ++ R) r p ty ∨ lock.Has p ∧ lock.lType = ty := by
  rw [hl]
  exact held_insert hown

theorem stepped_past (h : Own r lock → ¬ Overlap r lock) {done : Bool}
    (hdone : done = true → ∀ x ∈ R, Own r x → ¬ Overlap r x) :
    Stepped l0 r0 g g r done R (seen ++ [lock]) R (weight r (lock :: R)) where
  ordered := ho
  active := by rw [hl]; simp
  head := rfl
  searching := { hs with
    seen := fun x hx hox => by
      rcases mem_append.1 hx with hx | hx
      · exact hs.seen x hx hox
      · rw [mem_singleton.1 hx] at hox ⊢
        exact h hox }
  rest := fun x hx _ => .inl hx
  done := hdone
  ids := fun x hx => .inl hx
  nextId := Nat.le_refl _
  weight_lt := by
    rw [weight_cons]
    split <;> omega

theorem stepped_absorb (hown : Own r lock) {start lend : ℕ}
    (hspec : RelationSpec lock r (.absorb start lend)) :
    Stepped l0 r0 g (flkDeleteActiveLock g lock) (r.withRange start lend) false R
      seen R (weight r (lock :: R)) := by
  obtain ⟨hle, hlt, hhas, htype⟩ := hspec
  obtain ⟨ho', hact, hid⟩ := delete_ordered ho hl
  have hv : (r.withRange start lend).Valid := ⟨hle, hlt⟩
  have hlv := lock_valid hl hs
  -- A lock of the owner that the longer request overlaps was overlapped before.
  have hback : ∀ x ∈ seen ++ R, Own r x → Overlap (r.withRange start lend) x → Overlap r x := by
    intro x hx hox hov
    have hxv := (hs.sound.valid x (mem_active hl hx)).1
    rw [overlap_iff hv hxv] at hov
    rw [overlap_iff hs.valid hxv]
    obtain ⟨p, hp1, hp2⟩ := hov
    rcases (hhas p).1 hp1 with h | h
    · exact ⟨p, h, hp2⟩
    · exact absurd hp2 (not_has_of_lock ho hl hs hown hx hox h)
  refine ⟨ho', hact, rfl, ⟨?_, hv, ?_, ?_, ?_, ?_, ?_⟩, fun x hx _ => .inl hx, (fun h => nomatch h),
    fun x hx => .inl ?_, ?_, ?_⟩
  · rw [hact]
    exact hs.sound.mono fun x hx => mem_active hl hx
  · rw [hs.same]
    rfl
  · intro hne x hx hvx hso hov
    rw [hact] at hx
    have hxa := mem_active hl hx
    have hxv := (hs.sound.valid x hxa).1
    rw [overlap_iff hv hxv] at hov
    obtain ⟨p, hp1, hp2⟩ := hov
    by_cases hrp : r.Has p
    · exact hs.free hne x hxa hvx hso ((overlap_iff hs.valid hxv).2 ⟨p, hrp, hp2⟩)
    have hlp := ((hhas p).1 hp1).resolve_left hrp
    have hso' : ¬ SameOwner lock x := fun h => hso ⟨hown.2.1.trans h.1, hown.2.2.trans h.2⟩
    have hboth := hs.sound.others lock (by simp [hl]) x hxa (hvx.trans hown.1.symm) hso'
      ((overlap_iff hlv.1 hxv).2 ⟨p, hlp, hp2⟩)
    exact ⟨(htype p hlp hrp).symm.trans hboth.1, hboth.2⟩
  · intro x hx hox hov
    exact hs.seen x hx hox (hback x (mem_append_left R hx) hox hov)
  · intro p ty
    rw [← hs.view p ty, hact]
    have hheld := held_lock hl hown p ty
    unfold View
    by_cases hrp : r.Has p
    · have : (r.withRange start lend).Has p := (hhas p).2 (.inl hrp)
      rw [if_pos this, if_pos hrp]
      rfl
    rw [if_neg hrp, hheld]
    by_cases hlp : lock.Has p
    · have : (r.withRange start lend).Has p := (hhas p).2 (.inr hlp)
      rw [if_pos this]
      have hty := htype p hlp hrp
      constructor
      · exact fun h => .inr ⟨hlp, hty.trans h.2.symm⟩
      · rintro (⟨x, hx, hox, hxp, -⟩ | ⟨-, h⟩)
        · exact absurd hxp (not_has_of_lock ho hl hs hown hx hox hlp)
        · exact ⟨fun hc => hlv.2 (hty.trans hc), h.symm.trans hty⟩
    · have : ¬ (r.withRange start lend).Has p := fun h => ((hhas p).1 h).elim hrp hlp
      rw [if_neg this]
      exact ⟨fun h => .inl h, fun h => h.resolve_right fun h' => hlp h'.1⟩
  · rw [← hs.others, hact, hl, filter_own ((own_iff hs lock).1 hown)]
  · rw [hact] at hx
    exact mem_active hl hx
  · exact Nat.le_of_eq hid.symm
  · have hmono : weight (r.withRange start lend) R ≤ weight r R := weight_mono fun x hx hox hov =>
      ⟨hox, hback x (mem_append_right seen hx) hox hov⟩
    rw [weight_cons]
    split <;> omega

theorem stepped_split (hown : Own r lock) {pieces : List (ℕ × ℕ)}
    (hspec : RelationSpec lock r (.split pieces)) : ∃ seen' R',
    Stepped l0 r0 g (insertPieces lock pieces (flkDeleteActiveLock g lock)) r false R seen' R'
      (weight r (lock :: R)) := by
  obtain ⟨hov, hlen, hpw, hle, hhas⟩ := hspec
  obtain ⟨ho', hact, hid⟩ := delete_ordered ho hl
  have hlv := lock_valid hl hs
  have hin : ∀ a ∈ pieces, ∀ p, a.1 ≤ p → p ≤ a.2 → lock.Has p ∧ ¬ r.Has p := fun a ha p h1 h2 =>
    (hhas p).1 ⟨a, ha, h1, h2⟩
  have hsound : Sound (seen ++ R) := hs.sound.mono fun x hx => mem_active hl hx
  have hfit : FitsIn lock (seen ++ R) := by
    refine ⟨hlv.1, hlv.2, fun x hx hox => ?_, fun x hx hvx hso => ?_⟩
    · exact hs.sound.own lock (by simp [hl]) x (mem_active hl hx) hox (Ne.symm (ne_of_mem ho hl hx))
    · exact hs.sound.others lock (by simp [hl]) x (mem_active hl hx) hvx hso
  have hfits : ∀ a ∈ pieces, ∀ id, FitsIn (pieceOf lock id a) (seen ++ R) := by
    intro a ha id
    have h1 := (hin a ha a.1 (Nat.le_refl _) (hle a ha)).1
    have h2 := (hin a ha a.2 (hle a ha) (Nat.le_refl _)).1
    exact hfit.part rfl rfl rfl rfl ⟨hle a ha, Nat.lt_of_le_of_lt h2.2 hlv.1.lt⟩ h1.1 h2.2
      fun x hx => (hsound.valid x hx).1
  obtain ⟨seen', R', hp⟩ := insertPieces_placed hown pieces _ seen R ho' hact (hact ▸ hsound)
    (hact ▸ hfits) hpw (fun a ha p h1 h2 => (hin a ha p h1 h2).2) hs.valid
  have hpiece : ∀ x ∈ (insertPieces lock pieces (flkDeleteActiveLock g lock)).active,
      IsPiece r pieces x → ¬ Overlap r x := by
    rintro x hx ⟨-, a, ha, h1, h2⟩
    rw [overlap_iff hs.valid (hp.sound.valid x hx).1]
    rintro ⟨p, hp1, hp2⟩
    exact (hin a ha p (h1 ▸ hp2.1) (h2 ▸ hp2.2)).2 hp1
  have hmem : ∀ x ∈ (insertPieces lock pieces (flkDeleteActiveLock g lock)).active,
      x ∈ seen ++ R ∨ IsPiece r pieces x := by
    intro x hx
    rw [hp.active] at hx
    rcases mem_append.1 hx with hx | hx
    · exact (hp.seen_mem x hx).imp_left (mem_append_left R)
    · exact (hp.rest_mem x hx).imp_left (mem_append_right seen)
  have hinl : ∀ {x}, x ∈ seen' → x ∈ (insertPieces lock pieces (flkDeleteActiveLock g lock)).active :=
    fun hx => by rw [hp.active]; exact mem_append_left R' hx
  have hinr : ∀ {x}, x ∈ R' → x ∈ (insertPieces lock pieces (flkDeleteActiveLock g lock)).active :=
    fun hx => by rw [hp.active]; exact mem_append_right seen' hx
  refine ⟨seen', R', hp.ordered, hp.active, hp.head,
    ⟨hp.sound, hs.valid, hs.same, fun hne x hx hvx hso => ?_, fun x hx hox => ?_, fun p ty => ?_, ?_⟩,
    fun x hx _ => ?_, (fun h => nomatch h), fun x hx => ?_, ?_, ?_⟩
  · rcases hmem x hx with hx' | hx'
    · exact hs.free hne x (mem_active hl hx') hvx hso
    · exact absurd hx'.1.2 hso
  · rcases hp.seen_mem x hx with hx' | hx'
    · exact hs.seen x hx' hox
    · exact hpiece x (hinl hx) hx'
  · rw [← hs.view p ty]
    unfold View
    by_cases hrp : r.Has p
    · rw [if_pos hrp, if_pos hrp]
    · rw [if_neg hrp, if_neg hrp, hp.held, hact, held_lock hl hown, hhas]
      simp only [hrp, not_false_iff, and_true]
  · have hfilter := hp.others
    simp only [own_iff hs] at hfilter
    rw [hfilter, hact, ← hs.others, hl, filter_own ((own_iff hs lock).1 hown)]
  · rcases hp.rest_mem x hx with hx' | hx'
    · exact .inl hx'
    · exact .inr (hpiece x (hinr hx) hx')
  · refine (hp.ids x hx).imp_left fun hx' => ?_
    rw [hact] at hx'
    exact mem_active hl hx'
  · exact hid ▸ hp.nextId
  · have := hp.weight_le
    rw [weight_cons, if_pos ⟨hown, overlap_comm.1 hov⟩]
    omega

theorem stepped_remove (hown : Own r lock) (hspec : RelationSpec lock r .remove) :
    Stepped l0 r0 g (flkDeleteActiveLock g lock) r true R seen R (weight r (lock :: R)) := by
  obtain ⟨hty, hstart, hend⟩ := hspec
  obtain ⟨ho', hact, hid⟩ := delete_ordered ho hl
  have hhas : ∀ p, lock.Has p ↔ r.Has p := fun p => by
    unfold Lock.Has
    rw [hstart, hend]
  refine ⟨ho', hact, rfl, ⟨?_, hs.valid, hs.same, fun hne => absurd hty hne, hs.seen, fun p ty => ?_, ?_⟩,
    fun x hx _ => .inl hx, fun _ x hx hox hov => ?_, fun x hx => .inl ?_, Nat.le_of_eq hid.symm, ?_⟩
  · rw [hact]
    exact hs.sound.mono fun x hx => mem_active hl hx
  · rw [← hs.view p ty, hact]
    unfold View
    by_cases hrp : r.Has p
    · rw [if_pos hrp, if_pos hrp]
    · rw [if_neg hrp, if_neg hrp, held_lock hl hown, hhas]
      exact ⟨.inl, fun h => h.resolve_right fun h' => hrp h'.1⟩
  · rw [← hs.others, hact, hl, filter_own ((own_iff hs lock).1 hown)]
  · have hxa := mem_append_right seen hx
    rw [overlap_iff hs.valid (hs.sound.valid x (mem_active hl hxa)).1] at hov
    obtain ⟨p, hp1, hp2⟩ := hov
    exact not_has_of_lock ho hl hs hown hxa hox ((hhas p).2 hp1) hp2
  · rw [hact] at hx
    exact mem_active hl hx
  · rw [weight_cons]
    split <;> omega

theorem clear_of_sorted (hown : Own r lock) (hlt : r.lEnd < lock.lStart) :
    ∀ x ∈ R, Own r x → ¬ Overlap r x := by
  intro x hx hox hov
  have hsorted := ho.sorted lock.lVnode
  rw [hl, ofVnode_append, ofVnode_cons_same, pairwise_append, pairwise_cons] at hsorted
  have hle := hsorted.2.1.1 x (mem_ofVnode.2 ⟨hx, hox.1.trans hown.1.symm⟩)
  rw [overlap_iff hs.valid (hs.sound.valid x (mem_active hl (mem_append_right seen hx))).1] at hov
  obtain ⟨p, hp1, hp2⟩ := hov
  have h1 := hp1.2
  have h2 := hp2.1
  omega

theorem relation_step (hv : lock.lVnode = r.lVnode) {t : Graph × Lock × Bool}
    (ht : (if SameOwner r lock then flkRelation g lock r else (g, r, false)) = t) :
    ∃ seen' R', Stepped l0 r0 g t.1 t.2.1 t.2.2 R seen' R' (weight r (lock :: R)) := by
  subst ht
  by_cases hso : SameOwner r lock
  swap
  · rw [if_neg hso]
    exact ⟨_, _, stepped_past ho hl hs (fun h => absurd h.2 hso) (fun h => nomatch h)⟩
  have hown : Own r lock := ⟨hv, hso⟩
  have hlv := lock_valid hl hs
  have hspec := relate_spec hlv.1 hs.valid hlv.2
  rw [if_pos hso]
  unfold flkRelation
  generalize relate lock r = rel at hspec
  cases rel with
  | apart done =>
    refine ⟨_, _, stepped_past ho hl hs (fun _ hov => ?_) fun hd =>
      clear_of_sorted ho hl hs hown (hspec.2 hd)⟩
    obtain ⟨p, hp1, hp2⟩ := (overlap_iff hs.valid hlv.1).1 hov
    exact hspec.1 p ⟨hp2, hp1⟩
  | absorb start lend => exact ⟨_, _, stepped_absorb ho hl hs hown hspec⟩
  | split pieces => exact stepped_split ho hl hs hown hspec
  | remove => exact ⟨_, _, stepped_remove ho hl hs hown hspec⟩

end Step

/-! ## The loop -/

/-- The walk is over: the list is in order, and no lock of the owner overlaps the request. -/
structure Searched (l0 : List Lock) (r0 : Lock) (g g' : Graph) (r' : Lock) : Prop where
  ordered : Ordered g'
  searching : Searching l0 r0 g'.active g'.active r'
  ids : ∀ x ∈ g'.active, x ∈ g.active ∨ g.nextId ≤ x.id
  nextId : g.nextId ≤ g'.nextId

theorem Stepped.searched {l0 R seen' R' : List Lock} {r0 r' : Lock} {g' : Graph} {done : Bool} {w : ℕ}
    (h : Stepped l0 r0 g g' r' done R seen' R' w) (hR : ∀ x ∈ R', Own r' x → ¬ Overlap r' x) :
    Searched l0 r0 g g' r' := by
  refine ⟨h.ordered, { h.searching with seen := fun x hx hox => ?_ }, h.ids, h.nextId⟩
  rw [h.active] at hx
  rcases mem_append.1 hx with hx | hx
  · exact h.searching.seen x hx hox
  · exact hR x hx hox

theorem not_own_ahead {seen R : List Lock} (hg : Grouped Lock.lVnode (seen ++ lock :: x :: R))
    (hv : lock.lVnode = r.lVnode) (hx : x.lVnode ≠ r.lVnode) : ∀ y ∈ x :: R, ¬ Own r y := by
  intro y hy hoy
  rcases mem_cons.1 hy with rfl | hy
  · exact hx hoy.1
  · have hsub : [lock, x, y].Sublist (seen ++ lock :: x :: R) :=
      ((pair_sublist_cons hy).cons_cons lock).trans (sublist_append_right _ _)
    exact hx ((hg lock x y hsub (hv.trans hoy.1.symm)).trans hv)

theorem searchLoop_spec {l0 : List Lock} {r0 : Lock} : ∀ (n : ℕ) (g : Graph) (lock r : Lock)
    (seen R : List Lock), Ordered g → g.active = seen ++ lock :: R →
    Searching l0 r0 g.active seen r → lock.lVnode = r.lVnode → weight r (lock :: R) ≤ n →
    ∃ g' r', searchLoop n g lock.id r = some (g', r') ∧ Searched l0 r0 g g' r' := by
  intro n
  induction n with
  | zero =>
    intro g lock r seen R ho hl hs hv hw
    rw [weight_cons] at hw
    split at hw <;> omega
  | succ n ih =>
    intro g lock r seen R ho hl hs hv hw
    rw [searchLoop, (ho.fromId_eq hl).1]
    dsimp only
    generalize ht : (if SameOwner r lock then flkRelation g lock r else (g, r, false)) = t
    obtain ⟨seen', R', hst⟩ := relation_step ho hl hs hv ht
    obtain ⟨g', r', done⟩ := t
    dsimp only at hst ⊢
    have hvn : r'.lVnode = r.lVnode := by
      rw [hst.searching.same, hs.same]
      rfl
    cases R with
    | nil =>
      have hnil : R' = [] := List.head?_eq_none_iff.1 hst.head
      exact ⟨g', r', rfl, hst.searched fun x hx => by rw [hnil] at hx; cases hx⟩
    | cons lock1 R =>
      dsimp only
      split_ifs with hgo
      · obtain ⟨R1, rfl⟩ : ∃ R1, R' = lock1 :: R1 := by
          rcases R' with _ | ⟨x, R1⟩
          · exact absurd hst.head (by simp)
          · exact ⟨R1, by rw [Option.some.inj hst.head]⟩
        obtain ⟨g2, r2, heq, hend⟩ := ih g' lock1 r' seen' R1 hst.ordered hst.active hst.searching
          (hgo.1.trans hvn.symm) (by have := hst.weight_lt; omega)
        refine ⟨g2, r2, heq, hend.ordered, hend.searching, fun x hx => ?_,
          Nat.le_trans hst.nextId hend.nextId⟩
        rcases hend.ids x hx with hx | hx
        · exact hst.ids x hx
        · exact .inr (Nat.le_trans hst.nextId hx)
      · refine ⟨g', r', rfl, hst.searched fun x hx hox => ?_⟩
        rcases Bool.eq_false_or_eq_true done with hd | hd
        · exact hst.done hd x hx hox
        · have hother : lock1.lVnode ≠ r'.lVnode := fun h => hgo ⟨h.trans hvn, by simp [hd]⟩
          refine (hst.rest x hx hox).resolve_left fun hx' => ?_
          exact not_own_ahead (hl ▸ ho.grouped) (hv.trans hvn.symm) hother x hx' hox

end Osol.Flock
