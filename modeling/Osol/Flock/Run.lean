import Osol.Flock.Search

/-!
# The ownership map

To its owners a vnode's lock list is a map from bytes to lock types. Requests are executed one
at a time on a graph that was empty at first, each once no active lock of another owner is in
its way. Every such run keeps the list sound and in order, and a request changes the map on its
own range and for its own owner only.
-/

namespace Osol.Flock

open Osol.Lib List Option

variable {g g' : Graph} {r : Lock}

/-! ## Bytes -/

/-- The type of lock that the owner of `r` has at a byte of the vnode of `r`. -/
def typeAt (l : List Lock) (r : Lock) (p : ℕ) : Option LockType :=
  (l.find? fun x => Own r x ∧ x.Has p).map Lock.lType

theorem typeAt_eq_some {l : List Lock} (hs : Sound l) (p : ℕ) (ty : LockType) :
    typeAt l r p = some ty ↔ Held l r p ty := by
  unfold typeAt Held
  constructor
  · intro h
    obtain ⟨x, hx, rfl⟩ := map_eq_some_iff.1 h
    have hp := List.find?_some hx
    exact ⟨x, List.mem_of_find?_eq_some hx, (of_decide_eq_true hp).1, (of_decide_eq_true hp).2, rfl⟩
  rintro ⟨x, hx, hox, hxp, rfl⟩
  cases hf : l.find? fun x => Own r x ∧ x.Has p with
  | none => exact absurd (decide_eq_true ⟨hox, hxp⟩) (List.find?_eq_none.1 hf x hx)
  | some y =>
    have hfind := List.find?_some hf
    have hy := of_decide_eq_true hfind
    have hym := List.mem_of_find?_eq_some hf
    -- Two locks of the owner with a byte in common are one lock.
    by_cases hxy : x = y
    · rw [hxy]
      rfl
    · refine absurd ?_ (hs.own x hx y hym ⟨hy.1.1.trans hox.1.symm, hox.2.1.symm.trans hy.1.2.1,
        hox.2.2.symm.trans hy.1.2.2⟩ hxy)
      rw [overlap_iff (hs.valid x hx).1 (hs.valid y hym).1]
      exact ⟨p, hxp, hy.2⟩

/-! ## One request -/

structure Executed (l l' : List Lock) (r : Lock) : Prop where
  inside : ∀ p, r.Has p → typeAt l' r p = if r.lType = .unlck then none else some r.lType
  outside : ∀ p, ¬ r.Has p → typeAt l' r p = typeAt l r p
  others : l'.filter (fun x => ¬ Own r x) = l.filter (fun x => ¬ Own r x)

theorem Executed.of_view {l l' : List Lock} (hl : Sound l) (hl' : Sound l')
    (hv : ∀ p ty, Held l' r p ty ↔ View l r p ty)
    (ho : l'.filter (fun x => ¬ Own r x) = l.filter (fun x => ¬ Own r x)) : Executed l l' r := by
  refine ⟨fun p hp => ?_, fun p hp => ?_, ho⟩
  · refine ext fun ty => ?_
    rw [typeAt_eq_some hl', hv, View, if_pos hp]
    split_ifs with h
    · simp [h]
    · simp [h, eq_comm]
  · refine ext fun ty => ?_
    rw [typeAt_eq_some hl', hv, View, if_neg hp, typeAt_eq_some hl]

/-- A request that may be executed: it unlocks, or no active lock of another owner blocks it. -/
structure Admissible (g : Graph) (r : Lock) : Prop where
  valid : r.Valid
  free : r.lType ≠ .unlck → ∀ x ∈ g.active, x.lVnode = r.lVnode → ¬ Blocks x r

theorem Admissible.searching (h : Admissible g r) (hs : Sound g.active) :
    Searching g.active r g.active [] r := by
  refine ⟨hs, h.valid, rfl, fun hne x hx hvx hso hov => ?_, by simp, fun p ty => Iff.rfl, rfl⟩
  have hb := h.free hne x hx hvx
  have hw : ¬ (x.lType = .wrlck ∨ r.lType = .wrlck) :=
    fun hw => hb ⟨fun h => hso h.symm, hw, overlap_comm.1 hov⟩
  have hx' := (hs.valid x hx).2
  constructor
  · cases hr : r.lType <;> simp_all
  · cases hr : x.lType <;> simp_all

theorem executed_insert {l0 : List Lock} {r0 : Lock} (hl0 : Sound l0) (ho : Ordered g)
    (hs : Searching l0 r0 g.active g.active r) (hid : r.id < g.nextId)
    (hne : ∀ x ∈ g.active, x.id ≠ r.id) (hty : r.lType ≠ .unlck) :
    Ordered (flkInsertActiveLock g r) ∧ Sound (flkInsertActiveLock g r).active ∧
      Executed l0 (flkInsertActiveLock g r).active r0 := by
  obtain ⟨ho', -, A, B, hAB, hins⟩ := insert_ordered ho hid hne
  have hfit : FitsIn r (A ++ B) := hAB ▸ ⟨hs.valid, hty, hs.seen, hs.free hty⟩
  have hsound : Sound (flkInsertActiveLock g r).active := by
    rw [hins]
    exact Sound.insert (hAB ▸ hs.sound) hfit
  have hself : Own r r := ⟨rfl, rfl, rfl⟩
  refine ⟨ho', hsound, Executed.of_view hl0 hsound (fun p ty => ?_) ?_⟩
  · rw [← hs.view p ty, View, hAB, hins]
    have hown : Held (A ++ r :: B) r0 p ty ↔ Held (A ++ r :: B) r p ty := by
      unfold Held
      simp only [own_iff hs]
    rw [hown, held_insert hself]
    split_ifs with hp
    · constructor
      · rintro (⟨x, hx, hox, hxp, -⟩ | ⟨-, h⟩)
        · refine absurd ?_ (hfit.own x hx hox)
          rw [overlap_iff hs.valid (hs.sound.valid x (hAB ▸ hx)).1]
          exact ⟨p, hp, hxp⟩
        · exact ⟨hty, h.symm⟩
      · exact fun h => .inr ⟨hp, h.2.symm⟩
    · exact ⟨fun h => h.resolve_right fun h' => hp h'.1, .inl⟩
  · rw [hins, filter_own ((own_iff hs r).1 hself), ← hAB, hs.others]

theorem executed_unlock {l0 : List Lock} {r0 : Lock} (hl0 : Sound l0)
    (hs : Searching l0 r0 g.active g.active r) (hty : r.lType = .unlck) :
    Executed l0 g.active r0 := by
  refine Executed.of_view hl0 hs.sound (fun p ty => ?_) hs.others
  have hown : Held g.active r0 p ty ↔ Held g.active r p ty := by
    unfold Held
    simp only [own_iff hs]
  rw [← hs.view p ty, View, hown]
  by_cases hp : r.Has p
  · rw [if_pos hp]
    constructor
    · rintro ⟨x, hx, hox, hxp, -⟩
      refine absurd ?_ (hs.seen x hx hox)
      rw [overlap_iff hs.valid (hs.sound.valid x hx).1]
      exact ⟨p, hp, hxp⟩
    · exact fun h => absurd hty h.1
  · rw [if_neg hp]

theorem Ordered.first_split {first : ℕ} (h : Ordered g) (hf : g.filocks r.lVnode = some first) :
    ∃ A lock B, g.active = A ++ lock :: B ∧ lock.id = first ∧ lock.lVnode = r.lVnode ∧ ∀ x ∈ A,
    x.lVnode ≠ r.lVnode := by
  obtain ⟨A, post, hl, hA, -⟩ := h.grouped.exists_split r.lVnode
  rw [h.first, ofVnode] at hf
  cases hG : g.active.filter fun x => x.lVnode = r.lVnode with
  | nil =>
    rw [hG] at hf
    cases hf
  | cons lock G =>
    rw [hG] at hf hl
    have hm : lock ∈ g.active.filter fun x => x.lVnode = r.lVnode := by rw [hG]; exact mem_cons_self
    exact ⟨A, lock, G ++ post, by simpa using hl, Option.some.inj hf,
      by simpa using (mem_filter.1 hm).2, hA⟩

/-- `flk_execute_request` keeps the list in order and does to the ownership map what the request
says. -/
theorem flkExecuteRequest_spec (ho : Ordered g) (hs : Sound g.active) (ha : Admissible g r)
    (hid : r.id < g.nextId) (hne : ∀ x ∈ g.active, x.id ≠ r.id) (hio : r.ioLock = false) :
    ∃ g', flkExecuteRequest g r = some g' ∧ Ordered g' ∧ Sound g'.active ∧
    Executed g.active g'.active r := by
  have hstart := ha.searching hs
  unfold flkExecuteRequest
  rw [hio, if_neg (by simp)]
  cases hf : g.filocks r.lVnode with
  | none =>
    -- The vnode has no lock, and so none that could overlap.
    have hnone : ∀ x ∈ g.active, Own r x → ¬ Overlap r x := by
      intro x hx hox
      have hnil : ofVnode r.lVnode g.active = [] := by
        rwa [ho.first, map_eq_none_iff, List.head?_eq_none_iff] at hf
      have : x ∈ ofVnode r.lVnode g.active := mem_ofVnode.2 ⟨hx, hox.1⟩
      rw [hnil] at this
      cases this
    have hend : Searching g.active r g.active g.active r := { hstart with seen := hnone }
    dsimp only
    split_ifs with hty
    · exact ⟨g, rfl, ho, hs, executed_unlock hs hend hty⟩
    · exact ⟨_, rfl, executed_insert hs ho hend hid hne hty⟩
  | some first =>
    obtain ⟨A, lock, B, hl, rfl, hlv, hA⟩ := ho.first_split hf
    have hsearch : Searching g.active r g.active A r :=
      { hstart with seen := fun x hx hox => absurd hox.1 (hA x hx) }
    have hweight : weight r (lock :: B) ≤ 3 * g.active.length := by
      have := weight_le r (lock :: B)
      rw [hl, length_append]
      omega
    obtain ⟨g', r', heq, hend⟩ := searchLoop_spec _ g lock r A B ho hl hsearch hlv hweight
    have hsame := hend.searching.same
    have hid' : r'.id = r.id := by
      rw [hsame]
      rfl
    dsimp only
    rw [heq]
    dsimp only [bind_eq_bind, bind_some]
    split
    · rename_i hty
      exact ⟨g', rfl, hend.ordered, hend.searching.sound, executed_unlock hs hend.searching hty⟩
    rename_i hty
    refine ⟨_, rfl, executed_insert hs hend.ordered hend.searching ?_ (fun x hx => ?_) hty⟩
    · rw [hid']
      exact Nat.lt_of_lt_of_le hid hend.nextId
    · rw [hid']
      rcases hend.ids x hx with hx | hx
      · exact hne x hx
      · omega

/-! ## Runs -/

def execute (g : Graph) (request : Lock) : Option Graph :=
  flkExecuteRequest { g with nextId := g.nextId + 1 } { request with id := g.nextId }

inductive Reachable : Graph → Prop where
  | empty : Reachable Graph.empty
  | step {g g' : Graph} {request : Lock} : Reachable g → Admissible g request →
      execute g request = some g' → Reachable g'

theorem execute_spec (ho : Ordered g) (hs : Sound g.active) (ha : Admissible g r) :
    ∃ g', execute g r = some g' ∧ Ordered g' ∧ Sound g'.active ∧
      if r.ioLock then g'.active = g.active else Executed g.active g'.active r := by
  have ho1 : Ordered { g with nextId := g.nextId + 1 } :=
    { ho with fresh := fun x hx => Nat.lt_succ_of_lt (ho.fresh x hx) }
  by_cases hio : r.ioLock = true
  · refine ⟨{ g with nextId := g.nextId + 1 }, ?_, ho1, hs, by rw [if_pos hio]⟩
    unfold execute flkExecuteRequest
    rw [if_pos hio]
  · have ha1 : Admissible { g with nextId := g.nextId + 1 } { r with id := g.nextId } :=
      ⟨⟨ha.valid.le, ha.valid.lt⟩, ha.free⟩
    obtain ⟨g', heq, ho', hs', hex⟩ := flkExecuteRequest_spec ho1 hs ha1 (Nat.lt_add_one _)
      (fun x hx => Nat.ne_of_lt (ho.fresh x hx)) (by simpa using hio)
    exact ⟨g', heq, ho', hs', by rw [if_neg hio]; exact ⟨hex.inside, hex.outside, hex.others⟩⟩

theorem ordered_empty : Ordered Graph.empty :=
  ⟨nodup_nil, (fun _ h => nomatch h), (fun _ _ _ h => nomatch h), fun _ => rfl, fun _ => Pairwise.nil⟩

theorem sound_nil : Sound [] := ⟨nofun, nofun, nofun⟩

theorem Reachable.inv (h : Reachable g) : Ordered g ∧ Sound g.active := by
  induction h with
  | empty => exact ⟨ordered_empty, sound_nil⟩
  | step _ ha heq ih =>
    obtain ⟨g', heq', ho, hs, -⟩ := execute_spec ih.1 ih.2 ha
    rw [heq] at heq'
    cases heq'
    exact ⟨ho, hs⟩

/-- The locks of a vnode stand side by side in the list, sorted, with `v_filocks` at the first.
Those of one owner are disjoint, and where those of two owners overlap both are read locks. -/
structure VnodeLocks (g : Graph) (vp : ℕ) : Prop where
  segment : ∃ A B, g.active = A ++ ofVnode vp g.active ++ B
  sorted : (ofVnode vp g.active).Pairwise fun x y => x.lStart ≤ y.lStart
  first : g.filocks vp = ((ofVnode vp g.active).head?).map Lock.id
  disjoint : (ofVnode vp g.active).Pairwise fun x y => SameOwner x y → ∀ p, ¬ (x.Has p ∧ y.Has p)
  shared : (ofVnode vp g.active).Pairwise fun x y => ¬ SameOwner x y → Overlap x y →
    x.lType = .rdlck ∧ y.lType = .rdlck

theorem Ordered.vnodeLocks (ho : Ordered g) (hs : Sound g.active) (vp : ℕ) : VnodeLocks g vp := by
  have hnodup : (ofVnode vp g.active).Nodup := (Nodup.of_map Lock.id ho.nodup).filter _
  obtain ⟨A, B, hAB, -⟩ := ho.grouped.exists_split vp
  refine ⟨⟨A, B, hAB⟩, ho.sorted vp, ho.first vp, ?_, ?_⟩
  · refine hnodup.imp_of_mem fun {x y} hx hy hne hso p hp => ?_
    obtain ⟨hx, hxv⟩ := mem_ofVnode.1 hx
    obtain ⟨hy, hyv⟩ := mem_ofVnode.1 hy
    refine hs.own x hx y hy ⟨hyv.trans hxv.symm, hso⟩ hne ?_
    rw [overlap_iff (hs.valid x hx).1 (hs.valid y hy).1]
    exact ⟨p, hp⟩
  · refine hnodup.imp_of_mem fun {x y} hx hy _ hso hov => ?_
    obtain ⟨hx, hxv⟩ := mem_ofVnode.1 hx
    obtain ⟨hy, hyv⟩ := mem_ofVnode.1 hy
    exact hs.others x hx y hy (hyv.trans hxv.symm) hso hov

/-- In every run the lock lists are sound, every admissible request is executed, and it changes
the ownership map on its range and for its owner only. A request with `IO_LOCK` is there to
check the status and changes nothing. -/
theorem record_locks_realise_ownership {g : Graph} (h : Reachable g) :
    (∀ vp, VnodeLocks g vp) ∧ ∀ request, Admissible g request →
      ∃ g', execute g request = some g' ∧
        if request.ioLock then g'.active = g.active else Executed g.active g'.active request := by
  obtain ⟨ho, hs⟩ := h.inv
  refine ⟨ho.vnodeLocks hs, fun request ha => ?_⟩
  obtain ⟨g', heq, -, -, hex⟩ := execute_spec ho hs ha
  exact ⟨g', heq, hex⟩

def writeTen : Lock := ⟨0, 7, 1, 0, .wrlck, 0, 9, false⟩

def tenLocked : Graph := flkInsertActiveLock { Graph.empty with nextId := 1 } writeTen

theorem record_locks_realise_ownership_split :
    ∃ g', execute tenLocked ⟨0, 7, 1, 0, .unlck, 3, 5, false⟩ = some g' ∧
      Executed tenLocked.active g'.active ⟨0, 7, 1, 0, .unlck, 3, 5, false⟩ :=
  (record_locks_realise_ownership (.step .empty (show Admissible Graph.empty writeTen from
      ⟨⟨by decide, by decide⟩, nofun⟩) rfl)).2
    ⟨0, 7, 1, 0, .unlck, 3, 5, false⟩ ⟨⟨by decide, by decide⟩, fun h => absurd rfl h⟩

end Osol.Flock
