import Osol.Flock.Basic
import Osol.Lib.Grouped

/-!
# The list of active locks

What `flk_insert_active_lock` and `flk_delete_active_lock` do to the list: one lock comes in
or goes out, the locks of a vnode stay side by side and sorted, and `v_filocks` stays at the
first of them.
-/

namespace Osol.Flock

open Osol.Lib Function List

variable {g : Graph} {l A B : List Lock} {lock new : Lock}

def ofVnode (vp : ℕ) (l : List Lock) : List Lock := l.filter fun x => x.lVnode = vp

variable {vp : ℕ}

theorem mem_ofVnode {x : Lock} : x ∈ ofVnode vp l ↔ x ∈ l ∧ x.lVnode = vp := by
  simp [ofVnode]

@[simp] theorem ofVnode_append (vp : ℕ) (l l' : List Lock) :
    ofVnode vp (l ++ l') = ofVnode vp l ++ ofVnode vp l' := filter_append ..

theorem ofVnode_cons_same (x : Lock) (l : List Lock) :
    ofVnode x.lVnode (x :: l) = x :: ofVnode x.lVnode l := filter_cons_of_pos (by simp)

theorem ofVnode_cons_other {x : Lock} (h : x.lVnode ≠ vp) (l : List Lock) :
    ofVnode vp (x :: l) = ofVnode vp l := filter_cons_of_neg (by simpa using h)

theorem ofVnode_eq_nil (h : ∀ x ∈ l, x.lVnode ≠ vp) : ofVnode vp l = [] :=
  filter_eq_nil_iff.2 (by simpa using h)

structure Ordered (g : Graph) : Prop where
  nodup : (g.active.map Lock.id).Nodup
  fresh : ∀ x ∈ g.active, x.id < g.nextId
  grouped : Grouped Lock.lVnode g.active
  first : ∀ vp, g.filocks vp = ((ofVnode vp g.active).head?).map Lock.id
  sorted : ∀ vp, (ofVnode vp g.active).Pairwise fun x y => x.lStart ≤ y.lStart

/-! ## Finding a descriptor -/

theorem fromId_append {id : ℕ} (h : ∀ x ∈ A, x.id ≠ id) (hl : lock.id = id) (B : List Lock) :
    fromId id (A ++ lock :: B) = lock :: B ∧ beforeId id (A ++ lock :: B) = A := by
  induction A with
  | nil => simp [fromId, beforeId, hl]
  | cons a A ih =>
    have ha := h a mem_cons_self
    obtain ⟨h1, h2⟩ := ih fun x hx => h x (mem_cons_of_mem a hx)
    constructor
    · rwa [cons_append, fromId, dropWhile_cons_of_pos (by simpa using ha)]
    · rw [cons_append, beforeId, takeWhile_cons_of_pos (by simpa using ha)]
      exact congrArg (a :: ·) h2

theorem id_ne_of_nodup (h : ((A ++ lock :: B).map Lock.id).Nodup) :
    (∀ x ∈ A, x.id ≠ lock.id) ∧ ∀ x ∈ B, x.id ≠ lock.id := by
  rw [map_append, map_cons, nodup_append] at h
  obtain ⟨-, h2, h3⟩ := h
  refine ⟨fun x hx => h3 _ (mem_map_of_mem hx) _ mem_cons_self, fun x hx heq => ?_⟩
  exact (nodup_cons.1 h2).1 (heq ▸ mem_map_of_mem hx)

theorem Ordered.fromId_eq (h : Ordered g) (hl : g.active = A ++ lock :: B) :
    fromId lock.id g.active = lock :: B ∧ beforeId lock.id g.active = A := by
  have hne := (id_ne_of_nodup (hl ▸ h.nodup)).1
  rw [hl]
  exact fromId_append hne rfl B

/-! ## Inserting -/

theorem takeWhile_append_stop {p : Lock → Bool} {post : List Lock} (hpost : ∀ x ∈ post, p x = false)
    (l : List Lock) : (l ++ post).takeWhile p = l.takeWhile p ∧
    (l ++ post).dropWhile p = l.dropWhile p ++ post := by
  induction l with
  | nil =>
    rcases post with _ | ⟨x, post⟩
    · exact ⟨rfl, rfl⟩
    · have hx : p x = false := hpost x mem_cons_self
      simp [hx]
  | cons a l ih =>
    by_cases ha : p a = true
    · simp [ha, ih.1, ih.2]
    · simp [ha]

theorem takeWhile_skips {G : List Lock} (hG : G.Pairwise fun x y => x.lStart ≤ y.lStart)
    (hv : ∀ x ∈ G, x.lVnode = new.lVnode) : (∀ x ∈ G.takeWhile (skips new), x.lStart < new.lStart) ∧
      ∀ x ∈ G.dropWhile (skips new), new.lStart ≤ x.lStart := by
  induction G with
  | nil => simp
  | cons a G ih =>
    rw [pairwise_cons] at hG
    obtain ⟨h1, h2⟩ := ih hG.2 fun x hx => hv x (mem_cons_of_mem a hx)
    have hav := hv a mem_cons_self
    by_cases ha : a.lStart < new.lStart
    · have hs : skips new a = true := by simp [skips, hav, ha]
      rw [takeWhile_cons_of_pos hs, dropWhile_cons_of_pos hs]
      refine ⟨fun x hx => ?_, h2⟩
      rcases mem_cons.1 hx with rfl | hx
      · exact ha
      · exact h1 x hx
    have hs : ¬ skips new a = true := by simp [skips, ha]
    rw [takeWhile_cons_of_neg hs, dropWhile_cons_of_neg hs]
    refine ⟨by simp, fun x hx => ?_⟩
    rcases mem_cons.1 hx with rfl | hx
    · omega
    · have := hG.1 x hx
      omega

theorem Ordered.of_insert {g' : Graph} (h : Ordered g) (hl : g.active = A ++ B)
    (hl' : g'.active = A ++ new :: B) (hid : g'.nextId = g.nextId) (hnew : new.id < g.nextId)
    (hne : ∀ x ∈ g.active, x.id ≠ new.id) (hb : Beside Lock.lVnode A B new)
    (hA : ∀ x ∈ A, x.lVnode = new.lVnode → x.lStart ≤ new.lStart)
    (hB : ∀ x ∈ B, x.lVnode = new.lVnode → new.lStart ≤ x.lStart)
    (hfirst : g'.filocks new.lVnode = ((ofVnode new.lVnode g'.active).head?).map Lock.id)
    (hother : ∀ vp, vp ≠ new.lVnode → g'.filocks vp = g.filocks vp) : Ordered g' := by
  have hperm : (A ++ new :: B).Perm (new :: (A ++ B)) := perm_middle
  refine ⟨?_, ?_, ?_, fun vp => ?_, fun vp => ?_⟩
  · rw [hl', (hperm.map Lock.id).nodup_iff, map_cons, nodup_cons, ← hl]
    refine ⟨fun hm => ?_, h.nodup⟩
    obtain ⟨x, hx, heq⟩ := mem_map.1 hm
    exact hne x hx heq
  · intro x hx
    rw [hl', hperm.mem_iff, mem_cons, ← hl] at hx
    rw [hid]
    rcases hx with rfl | hx
    · exact hnew
    · exact h.fresh x hx
  · rw [hl']
    exact Grouped.insert (hl ▸ h.grouped) hb
  · by_cases hvp : vp = new.lVnode
    · rw [hvp, hfirst]
    · rw [hother vp hvp, h.first vp, hl, hl', ofVnode_append, ofVnode_append,
        ofVnode_cons_other (Ne.symm hvp)]
  have hs := h.sorted vp
  rw [hl, ofVnode_append, pairwise_append] at hs
  rw [hl', ofVnode_append, pairwise_append]
  by_cases hvp : vp = new.lVnode
  · subst hvp
    rw [ofVnode_cons_same, pairwise_cons]
    refine ⟨hs.1, ⟨fun y hy => ?_, hs.2.1⟩, fun x hx y hy => ?_⟩
    · exact hB y (mem_ofVnode.1 hy).1 (mem_ofVnode.1 hy).2
    · rcases mem_cons.1 hy with rfl | hy
      · exact hA x (mem_ofVnode.1 hx).1 (mem_ofVnode.1 hx).2
      · exact hs.2.2 x hx y hy
  · rwa [ofVnode_cons_other (Ne.symm hvp)]

theorem insert_ordered (h : Ordered g) (hnew : new.id < g.nextId)
    (hne : ∀ x ∈ g.active, x.id ≠ new.id) : Ordered (flkInsertActiveLock g new) ∧
      (flkInsertActiveLock g new).nextId = g.nextId ∧
      ∃ A B, g.active = A ++ B ∧ (flkInsertActiveLock g new).active = A ++ new :: B := by
  have hfirst := h.first new.lVnode
  cases hf : g.filocks new.lVnode with
  | none =>
    have heq : flkInsertActiveLock g new = { g with
        active := g.active ++ [new]
        filocks := update g.filocks new.lVnode (some new.id) } := by
      unfold flkInsertActiveLock
      rw [hf]
    have hnil : ofVnode new.lVnode g.active = [] := by
      rw [hf] at hfirst
      simpa using hfirst.symm
    have hnone : ∀ x ∈ g.active, x.lVnode ≠ new.lVnode := fun x hx hv => by
      have : x ∈ ofVnode new.lVnode g.active := mem_ofVnode.2 ⟨hx, hv⟩
      rw [hnil] at this
      cases this
    rw [heq]
    refine ⟨h.of_insert (append_nil _).symm rfl rfl hnew hne
      (.inr (.inr ⟨rfl, hnone⟩)) (fun x hx hv => absurd hv (hnone x hx)) (by simp) ?_ ?_, rfl,
      g.active, [], (append_nil _).symm, rfl⟩
    · show update _ _ _ _ = _
      rw [update_self, ofVnode_append, hnil, ofVnode_cons_same]
      rfl
    · exact fun vp hvp => update_of_ne hvp _ _
  | some f =>
    obtain ⟨pre, post, hsplit, hpre, hpost⟩ := h.grouped.exists_split new.lVnode
    change g.active = pre ++ ofVnode new.lVnode g.active ++ post at hsplit
    have hG : ∀ x ∈ ofVnode new.lVnode g.active, x.lVnode = new.lVnode := fun x hx => (mem_ofVnode.1 hx).2
    have hsort := h.sorted new.lVnode
    generalize ofVnode new.lVnode g.active = G at hfirst hsplit hG hsort
    rcases G with _ | ⟨fl, G⟩
    · rw [hf] at hfirst
      cases hfirst
    have hfl : f = fl.id := by
      rw [hf] at hfirst
      simpa using hfirst
    subst hfl
    have hsplit' : g.active = pre ++ fl :: (G ++ post) := by rw [hsplit]; simp
    obtain ⟨hfrom, hbefore⟩ := h.fromId_eq hsplit'
    have hstop : ∀ x ∈ post, skips new x = false := fun x hx => by simp [skips, hpost x hx]
    obtain ⟨htake, hdrop⟩ := takeWhile_append_stop hstop (fl :: G)
    obtain ⟨hlt, hge⟩ := takeWhile_skips hsort hG
    have hwhole : (fl :: G).takeWhile (skips new) ++ (fl :: G).dropWhile (skips new) = fl :: G :=
      takeWhile_append_dropWhile
    have hmemT : ∀ x ∈ (fl :: G).takeWhile (skips new), x.lVnode = new.lVnode := fun x hx =>
      hG x ((takeWhile_sublist _).subset hx)
    have heq : flkInsertActiveLock g new = { g with
        active := pre ++ (fl :: G).takeWhile (skips new) ++
          new :: ((fl :: G).dropWhile (skips new) ++ post)
        filocks :=
          if new.lStart ≤ fl.lStart then update g.filocks new.lVnode (some new.id)
          else g.filocks } := by
      unfold flkInsertActiveLock
      rw [hf]
      simp only [hfrom, hbefore]
      rw [← cons_append, htake, hdrop]
      simp
    have hact : g.active = pre ++ (fl :: G).takeWhile (skips new) ++
        ((fl :: G).dropWhile (skips new) ++ post) := by
      rw [hsplit, append_assoc, append_assoc, ← append_assoc (takeWhile _ _), hwhole]
    rw [heq]
    generalize (fl :: G).takeWhile (skips new) = T at *
    have hpre0 := ofVnode_eq_nil hpre
    have hT : ofVnode new.lVnode T = T := filter_eq_self.2 (by simpa using hmemT)
    refine ⟨h.of_insert hact rfl rfl hnew hne ?_ ?_ ?_ ?_ ?_, rfl, _, _, hact, rfl⟩
    · rcases T.eq_nil_or_concat with rfl | ⟨T', t, rfl⟩
      · refine .inr (.inl ⟨fl, G ++ post, ?_, hG fl mem_cons_self⟩)
        rw [nil_append] at hwhole
        rw [hwhole]
        rfl
      · exact .inl ⟨t, pre ++ T', by simp, hmemT t (by simp)⟩
    · intro x hx hv
      rcases mem_append.1 hx with hx | hx
      · exact absurd hv (hpre x hx)
      · exact Nat.le_of_lt (hlt x hx)
    · intro x hx hv
      rcases mem_append.1 hx with hx | hx
      · exact hge x hx
      · exact absurd hv (hpost x hx)
    · dsimp only
      rw [ofVnode_append, ofVnode_append, hpre0, hT, nil_append, ofVnode_cons_same]
      rcases T with _ | ⟨t, T⟩
      · -- Nothing was skipped: the new lock is the first.
        rw [nil_append] at hwhole
        have hle : new.lStart ≤ fl.lStart := hge fl (by rw [hwhole]; exact mem_cons_self)
        rw [if_pos hle, update_self]
        rfl
      · obtain rfl : t = fl := (List.cons.inj hwhole).1
        have hlt' := hlt t mem_cons_self
        rw [if_neg (by omega), hf]
        rfl
    · intro vp hvp
      split
      · exact update_of_ne hvp _ _
      · rfl

/-! ## Deleting -/

theorem firstOf_cons (vp : ℕ) (x : Lock) (l : List Lock) :
    firstOf vp (x :: l) = if x.lVnode = vp then some x.id else none := rfl

theorem delete_ordered (h : Ordered g) (hl : g.active = A ++ lock :: B) :
    Ordered (flkDeleteActiveLock g lock) ∧ (flkDeleteActiveLock g lock).active = A ++ B ∧
      (flkDeleteActiveLock g lock).nextId = g.nextId := by
  obtain ⟨hfrom, hbefore⟩ := h.fromId_eq hl
  have hne := id_ne_of_nodup (hl ▸ h.nodup)
  have hsub : (A ++ B).Sublist g.active := by
    rw [hl]
    exact (Sublist.refl A).append (sublist_cons_self lock B)
  have heq : flkDeleteActiveLock g lock = { g with
      active := A ++ B
      filocks :=
        if g.filocks lock.lVnode = some lock.id then
          update g.filocks lock.lVnode (firstOf lock.lVnode B)
        else g.filocks } := by
    unfold flkDeleteActiveLock
    rw [hfrom, hbefore]
    rfl
  rw [heq]
  refine ⟨⟨h.nodup.sublist (hsub.map _), fun x hx => h.fresh x (hsub.subset hx),
    h.grouped.sublist hsub, fun vp => ?_, fun vp => (h.sorted vp).sublist (hsub.filter _)⟩, rfl, rfl⟩
  have hfirst := h.first vp
  dsimp only
  by_cases hvp : vp = lock.lVnode
  · subst hvp
    rw [hl, ofVnode_append, ofVnode_cons_same] at hfirst
    rw [ofVnode_append]
    rcases hA : ofVnode lock.lVnode A with _ | ⟨a, A'⟩
    · -- The lock is the first of its vnode, and the next one follows at once, if there is one.
      rw [hA] at hfirst
      have hlock : g.filocks lock.lVnode = some lock.id := hfirst
      rw [if_pos hlock, update_self, nil_append]
      rcases B with _ | ⟨b, B⟩
      · rfl
      rw [firstOf_cons]
      by_cases hb : b.lVnode = lock.lVnode
      · rw [if_pos hb, ← hb, ofVnode_cons_same]
        rfl
      have hnone : ofVnode lock.lVnode (b :: B) = [] := by
        refine ofVnode_eq_nil fun x hx hv => ?_
        rcases mem_cons.1 hx with rfl | hx
        · exact hb hv
        · have hs : [lock, b, x].Sublist g.active := by
            rw [hl]
            refine (Sublist.cons_cons lock ?_).trans (sublist_append_right A _)
            exact pair_sublist_cons hx
          exact hb (h.grouped lock b x hs hv.symm)
      rw [if_neg hb, hnone]
      rfl
    · rw [hA] at hfirst
      have hain : a ∈ A := (mem_ofVnode.1 (show a ∈ ofVnode lock.lVnode A by rw [hA]; simp)).1
      rw [if_neg, hfirst]
      · rfl
      · rw [hfirst]
        exact fun hc => hne.1 a hain (Option.some.inj hc)
  · have hsame : ofVnode vp g.active = ofVnode vp (A ++ B) := by
      rw [hl, ofVnode_append, ofVnode_append, ofVnode_cons_other (Ne.symm hvp)]
    rw [← hsame, ← hfirst]
    split
    · exact update_of_ne hvp _ _
    · rfl

end Osol.Flock
