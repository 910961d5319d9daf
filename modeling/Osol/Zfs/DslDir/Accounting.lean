import Osol.Zfs.DslDir.Propagate

/-!
# The books of a pool

The invariant of the directories of a pool and its preservation by every operation.
-/

namespace Osol.Zfs.DslDir

open Osol.Lib Function State Finset Option

variable {st st' : State} {cpar cpar' rpar rpar' : ℕ → Option ℕ} {rank : ℕ → ℕ} {dd : ℕ}
  {t : DdUsed} {δ δc δu : ℤ}

/-- The counters of all directories add up, each child counting where `cpar` and `rpar` say. -/
structure Books (st : State) (cpar rpar : ℕ → Option ℕ) : Prop where
  summed : ∀ d ∈ st.dirs, Summed (st.phys d)
  balanced : ∀ d ∈ st.dirs, Balanced st.dirs cpar rpar st.phys d

/-- The directories are a tree and their counters add up. -/
structure Inv (st : State) : Prop where
  forest : ∃ rank, Forest st rank
  root : ∀ d ∈ st.dirs, ∀ d' ∈ st.dirs, st.parent d = none → st.parent d' = none → d = d'
  books : Books st st.parent st.parent

theorem Books.way (h : Books st cpar rpar) (hf : Forest st rank) (hdd : dd ∈ st.dirs)
    (hc : ∀ e, st.Above dd e → cpar e = st.parent e)
    (hr : ∀ e, st.Above dd e → rpar e = st.parent e) : Way cpar rpar st dd :=
  ⟨hc, hr, fun e he => h.summed e (hf.above hdd he).1, fun e he _ => h.balanced e (hf.above hdd he).1⟩

/-! ## The directory at which a change starts -/

variable {e : ℕ}

theorem Way.children (h : Way cpar rpar st dd) (hf : Forest st rank) (he : e ∈ st.dirs)
    (hchild : cpar e = some dd ∨ rpar e = some dd) : ¬st.Above dd e := by
  intro ha
  have hp : st.parent e = some dd := by
    rcases hchild with hchild | hchild
    · rw [← h.cpar_eq e ha, hchild]
    · rw [← h.rpar_eq e ha, hchild]
  exact hf.not_above_parent he hp ha

section Start

variable (h : Moved cpar rpar st st' dd t δ δc δu)
  (hkeep : ∀ e ∈ st.dirs, cpar' e = some dd ∨ rpar' e = some dd → ¬st.Above dd e)
  (h1 : ((st.phys dd).add t δ δc δu).usedBreakdown .child =
    childSum st.dirs cpar' (fun e => (st.phys e).usedBytes) dd)
  (h2 : ((st.phys dd).add t δ δc δu).usedBreakdown .childRsrv =
    childSum st.dirs rpar' (fun e => (st.phys e).reserved - (st.phys e).usedBytes) dd)
  (h3 : childSum st.dirs cpar' (fun e => (st.phys e).compressedBytes) dd ≤
    (st.phys dd).compressedBytes + δc)
  (h4 : childSum st.dirs cpar' (fun e => (st.phys e).uncompressedBytes) dd ≤
    (st.phys dd).uncompressedBytes + δu)
include h hkeep h1 h2 h3 h4

theorem Moved.balanced_start : Balanced st.dirs cpar' rpar' st'.phys dd := by
  have hsum : ∀ {par : ℕ → Option ℕ} (f : DirPhys → ℕ), (∀ e ∈ st.dirs, par e = some dd → ¬st.Above dd e) →
      childSum st.dirs par (fun e => f (st'.phys e)) dd =
      childSum st.dirs par (fun e => f (st.phys e)) dd :=
    fun f hpar => childSum_congr (fun _ _ => Iff.rfl) fun e h1 h2 => by rw [h.frame e (hpar e h1 h2)]
  have hc := fun e he hce => hkeep e he (.inl hce)
  have hr := fun e he hre => hkeep e he (.inr hre)
  refine ⟨?_, ?_, ?_, ?_⟩
  · rw [h.start, hsum (·.usedBytes) hc, h1]
  · rw [h.start, hsum (fun d => d.reserved - d.usedBytes) hr, h2]
  · rw [h.start, hsum (·.compressedBytes) hc]
    simp only [DirPhys.add]
    omega
  · rw [h.start, hsum (·.uncompressedBytes) hc]
    simp only [DirPhys.add]
    omega

/-- A change at `dd`, after which directories count for `dd` that did not, or the reverse. -/
theorem Moved.books (hb : Books st cpar rpar)
    (hoff : ∀ d, d ≠ dd → ∀ e, (cpar e = some d ↔ cpar' e = some d) ∧
      (rpar e = some d ↔ rpar' e = some d)) : Books st' cpar' rpar' := by
  refine ⟨fun d hd => h.summed d (hb.summed d (h.dirs ▸ hd)), fun d hd => ?_⟩
  rw [h.dirs] at hd ⊢
  by_cases hdd' : d = dd
  · exact hdd' ▸ h.balanced_start hkeep h1 h2 h3 h4
  · exact (h.balanced d hdd' (hb.balanced d hd)).congr rfl rfl rfl (fun e _ => (hoff d hdd' e).1)
      (fun e _ => (hoff d hdd' e).2) (fun _ _ _ => .of_eq rfl) fun _ _ _ => .of_eq rfl

end Start

theorem Books.own (h : Books st cpar rpar) (hf : Forest st rank) (hw : Way cpar rpar st dd)
    (hdd : dd ∈ st.dirs) (hm : Moved cpar rpar st st' dd t δ δc δu)
    (ht : t ∈ [DdUsed.head, .snap, .refRsrv])
    (hc : childSum st.dirs cpar (fun e => (st.phys e).compressedBytes) dd ≤
      (st.phys dd).compressedBytes + δc)
    (hu : childSum st.dirs cpar (fun e => (st.phys e).uncompressedBytes) dd ≤
      (st.phys dd).uncompressedBytes + δu) : Books st' cpar rpar := by
  have hb := h.balanced dd hdd
  have hne : DdUsed.child ≠ t ∧ DdUsed.childRsrv ≠ t := by
    simp only [List.mem_cons, List.not_mem_nil, or_false] at ht
    rcases ht with rfl | rfl | rfl <;> exact ⟨DdUsed.noConfusion, DdUsed.noConfusion⟩
  refine hm.books (fun e he => hw.children hf he) ?_ ?_ hc hu h fun _ _ _ => ⟨.rfl, .rfl⟩
  · exact (update_of_ne hne.1 ..).trans hb.child
  · exact (update_of_ne hne.2 ..).trans hb.childRsrv

/-! ## The operations -/

def NoRoom (st : State) (δ δc δu : ℤ) : Prop :=
  ∃ a ∈ st.dirs, 2 ^ 64 ≤ (st.phys a).usedBytes + max δ 0 ∨
    2 ^ 64 ≤ (st.phys a).compressedBytes + max δc 0 ∨
    2 ^ 64 ≤ (st.phys a).uncompressedBytes + max δu 0

theorem Books.diduseSpace (h : Books st cpar rpar) (hf : Forest st rank) (hdd : dd ∈ st.dirs)
    (hc : ∀ e, st.Above dd e → cpar e = st.parent e)
    (hr : ∀ e, st.Above dd e → rpar e = st.parent e)
    (hb : 0 ≤ (st.phys dd).usedBreakdown t + δ) (hcomp : 0 ≤ (st.phys dd).compressedBytes + δc)
    (hunc : 0 ≤ (st.phys dd).uncompressedBytes + δu) :
    Outcome (dslDirDiduseSpace st.dirs.card st dd t δ δc δu)
      (fun st' => Moved cpar rpar st st' dd t δ δc δu) (NoRoom st δ δc δu) := by
  refine (diduseSpace_spec _ hf hdd (below_lt_card rank hdd) (h.way hf hdd hc hr) hb hcomp
    hunc).imp (fun _ => id) fun ⟨a, ha, hfull⟩ => ?_
  exact ⟨a, (hf.above hdd ha).1, hfull⟩

theorem add_zero_nonneg (n : ℕ) : (0 : ℤ) ≤ n + 0 := by omega

theorem Inv.diduseSpace (h : Inv st) (hl : Legal st (.diduseSpace dd t δ δc δu)) :
    Outcome (dslDirDiduseSpace st.dirs.card st dd t δ δc δu) Inv (NoRoom st δ δc δu) := by
  obtain ⟨⟨rank, hf⟩, hroot, hb⟩ := h
  obtain ⟨hdd, ht, hused, hcomp, hunc⟩ := hl
  refine (hb.diduseSpace hf hdd (fun _ _ => rfl) (fun _ _ => rfl) hused (by omega)
    (by omega)).imp (fun st' hm => ⟨⟨rank, hf.kept hm.toKept⟩, ?_, ?_⟩) id
  · rwa [hm.dirs, hm.parent]
  · rw [hm.parent]
    exact hb.own hf (hb.way hf hdd (fun _ _ => rfl) fun _ _ => rfl) hdd hm ht hcomp hunc

/-! ### Reservations -/

theorem State.setReserved_field {α : Type} (f : DirPhys → α) (v : ℕ)
    (h : f { st.phys dd with reserved := v } = f (st.phys dd)) (e : ℕ) :
    f ((st.setReserved dd v).phys e) = f (st.phys e) :=
  set_field st f h e

theorem State.setReserved_parent (st : State) (dd v : ℕ) :
    (st.setReserved dd v).parent = st.parent := set_parent _ _ rfl

variable {d v : ℕ}

theorem Summed.setReserved (h : Summed (st.phys d)) : Summed ((st.setReserved dd v).phys d) := by
  unfold Summed
  rw [setReserved_field (·.usedBytes) v rfl, setReserved_field (·.usedBreakdown) v rfl,
    setReserved_field (·.compressedBytes) v rfl,
    setReserved_field (·.uncompressedBytes) v rfl]
  exact h

theorem Balanced.setReserved (h : Balanced st.dirs cpar rpar st.phys d)
    (hc : cpar dd ≠ some d) (hr : rpar dd ≠ some d) :
    Balanced st.dirs cpar rpar (st.setReserved dd v).phys d := by
  exact h.congr (setReserved_field (·.usedBreakdown) v rfl d)
    (setReserved_field (·.compressedBytes) v rfl d)
    (setReserved_field (·.uncompressedBytes) v rfl d) (fun _ _ => Iff.rfl)
    (fun _ _ => Iff.rfl) (fun e _ => .set_of_ne hc) fun e _ => .set_of_ne hr

theorem setReservation_root (hp : st.parent dd = none) :
    dslDirSetReservationSync st dd v = .ok (st.setReserved dd v) := by
  have hp' : (st.phys dd).ddParent = none := hp
  simp only [dslDirSetReservationSync, hp']

theorem setReservation_child {p : ℕ} (hp : st.parent dd = some p) : dslDirSetReservationSync st dd v =
      dslDirDiduseSpace (st.setReserved dd v).dirs.card (st.setReserved dd v) p .childRsrv
        (max ((st.phys dd).usedBytes : ℤ) v -
          max ((st.phys dd).usedBytes : ℤ) (st.phys dd).reserved) 0 0 := by
  have hp' : (st.phys dd).ddParent = some p := hp
  simp only [dslDirSetReservationSync, hp']

theorem Balanced.reserve {p : ℕ} (h : Balanced st.dirs st.parent st.parent st.phys p)
    (hf : Forest st rank) (hdd : dd ∈ st.dirs) (hp : st.parent dd = some p)
    (hm : Moved st.parent st.parent (st.setReserved dd v) st' p .childRsrv
      (max ((st.phys dd).usedBytes : ℤ) v -
        max ((st.phys dd).usedBytes : ℤ) (st.phys dd).reserved) 0 0) :
    Balanced st.dirs st.parent st.parent st'.phys p := by
  have hpar := setReserved_parent st dd v
  have hpp := set_phys_of_ne st { st.phys dd with reserved := v }
    (show p ≠ dd from fun hpd => hf.not_above_parent hdd hp (hpd ▸ .refl))
  have hsum : ∀ f : DirPhys → ℕ, (f { st.phys dd with reserved := v } = f (st.phys dd)) →
      childSum st.dirs st.parent (fun e => f ((st.setReserved dd v).phys e)) p =
        childSum st.dirs st.parent (fun e => f (st.phys e)) p :=
    fun f hf => childSum_congr (fun _ _ => Iff.rfl) fun e _ _ => setReserved_field f v hf e
  have h2 := childSum_update (fun e => (st.phys e).reserved - (st.phys e).usedBytes)
    (fun e => ((st.setReserved dd v).phys e).reserved - ((st.setReserved dd v).phys e).usedBytes)
    hdd hp fun x _ _ hx => by rw [State.setReserved, set_phys_of_ne _ _ hx]
  refine hm.balanced_start (fun e he hchild => ?_) ?_ ?_ ?_ ?_
  · rw [above_congr hpar]
    exact hf.not_above_parent he (hchild.elim id id)
  · show (((st.setReserved dd v).phys p).add _ _ _ _).usedBreakdown .child = childSum st.dirs _ _ p
    rw [hsum (·.usedBytes) rfl, ← h.child, State.setReserved, hpp]
    simp [DirPhys.add]
  · show (((st.setReserved dd v).phys p).add _ _ _ _).usedBreakdown .childRsrv = childSum st.dirs _ _ p
    simp only [State.setReserved, set_phys_self] at h2 ⊢
    rw [hpp]
    simp only [DirPhys.add, update_self]
    have := h.childRsrv
    omega
  · rw [add_zero, State.setReserved, hpp]
    exact Int.ofNat_le.2 ((hsum (·.compressedBytes) rfl).trans_le h.compressed)
  · rw [add_zero, State.setReserved, hpp]
    exact Int.ofNat_le.2 ((hsum (·.uncompressedBytes) rfl).trans_le h.uncompressed)

theorem Inv.setReservation (h : Inv st) (hdd : dd ∈ st.dirs) (v : ℕ) :
    Outcome (dslDirSetReservationSync st dd v)
      (fun st' => Inv st' ∧ st'.dirs = st.dirs ∧ st'.parent = st.parent ∧
        st'.phys dd = { st.phys dd with reserved := v })
      (NoRoom st (max ((st.phys dd).usedBytes : ℤ) v -
        max ((st.phys dd).usedBytes : ℤ) (st.phys dd).reserved) 0 0) := by
  obtain ⟨⟨rank, hf⟩, hroot, hb⟩ := h
  have hpar := setReserved_parent st dd v
  have hf1 : Forest (st.setReserved dd v) rank := hf.set rfl rfl
  have hbal1 : ∀ d ∈ st.dirs, st.parent dd ≠ some d →
    Balanced st.dirs st.parent st.parent (st.setReserved dd v).phys d :=
    fun d hd hne => (hb.balanced d hd).setReserved hne hne
  cases hp : st.parent dd with
  | none =>
    refine .inl ⟨_, setReservation_root hp, ⟨⟨rank, hf1⟩, ?_, ?_⟩, rfl, hpar, set_phys_self ..⟩
    · rwa [hpar]
    · rw [hpar]
      refine ⟨fun d hd => (hb.summed d hd).setReserved, fun d hd => hbal1 d hd ?_⟩
      rw [hp]
      exact fun heq => by cases heq
  | some p =>
    have hpd := hf.mem dd hdd p hp
    have hw : Way st.parent st.parent (st.setReserved dd v) p :=
      (hb.way hf hdd (fun _ _ => rfl) fun _ _ => rfl).parent hf hdd hp rfl
    have hcov := (hb.balanced p hpd).covers hdd hp hp
    rw [setReservation_child hp]
    have hnonneg : 0 ≤ (((st.setReserved dd v).phys p).usedBreakdown .childRsrv : ℤ) +
        (max ((st.phys dd).usedBytes : ℤ) v -
          max ((st.phys dd).usedBytes : ℤ) (st.phys dd).reserved) := by
      rw [setReserved_field (·.usedBreakdown) v rfl]
      omega
    refine (diduseSpace_spec (st.setReserved dd v).dirs.card hf1 hpd (below_lt_card rank hpd) hw
      hnonneg (add_zero_nonneg _) (add_zero_nonneg _)).imp (fun st' hm => ?_)
      fun ⟨a, ha, hfull⟩ => ?_
    · refine ⟨⟨⟨rank, hf1.kept hm.toKept⟩, ?_, ?_⟩, hm.dirs, hm.parent.trans hpar, ?_⟩
      · rwa [hm.dirs, hm.parent, hpar]
      · rw [hm.parent, hpar]
        refine ⟨fun d hd => hm.summed d (hb.summed d (hm.dirs ▸ hd)).setReserved, fun d hd => ?_⟩
        have hd' : d ∈ st.dirs := hm.dirs ▸ hd
        rw [hm.dirs]
        by_cases hdp : d = p
        · subst hdp
          exact (hb.balanced d hd').reserve hf hdd hp hm
        · refine hm.balanced d hdp (hbal1 d hd' ?_)
          rw [hp]
          exact ne_some_of_ne hdp
      · rw [hm.frame dd, State.setReserved, set_phys_self]
        rw [above_congr hpar]
        exact hf.not_above_parent hdd hp
    · refine ⟨a, (hf1.above hpd ha).1, ?_⟩
      rwa [setReserved_field (·.usedBytes) v rfl, setReserved_field (·.compressedBytes) v rfl,
        setReserved_field (·.uncompressedBytes) v rfl] at hfull

/-! ### Rename -/

section Rename

variable {op np : ℕ} {o : Option ℕ} {u c n : ℤ}

theorem Way.recount (hw : Way cpar rpar st np) (hf : Forest st rank) (hup : ¬st.Above np dd) :
    ∀ e ∈ st.dirs, update cpar dd o e = some np ∨ rpar e = some np ∨
      cpar e = some np ∨ update rpar dd o e = some np → ¬st.Above np e := by
  intro e he hchild
  by_cases hed : e = dd
  · exact hed ▸ hup
  · rw [update_of_ne hed, update_of_ne hed] at hchild
    exact hw.children hf he (by tauto)

theorem update_iff {par : ℕ → Option ℕ} {q : ℕ} (h : par dd ≠ some q ∧ o ≠ some q) (e : ℕ) :
    par e = some q ↔ update par dd o e = some q := by
  by_cases hed : e = dd
  · subst hed
    rw [update_self]
    exact iff_of_false h.1 h.2
  · rw [update_of_ne hed]

section Move

variable (h : Books st cpar rpar) (hf : Forest st rank) (hnp : np ∈ st.dirs)
  (hc : ∀ e, st.Above np e → cpar e = st.parent e) (hr : ∀ e, st.Above np e → rpar e = st.parent e)
  (hup : ¬st.Above np dd)
include h hf hnp hc hr hup

theorem Books.move (hout : ∀ q, q ≠ np → cpar dd ≠ some q ∧ o ≠ some q)
    (hu : (childSum st.dirs (update cpar dd o) (fun e => (st.phys e).usedBytes) np : ℤ) =
      childSum st.dirs cpar (fun e => (st.phys e).usedBytes) np + u)
    (hcc : (childSum st.dirs (update cpar dd o) (fun e => (st.phys e).compressedBytes) np : ℤ) =
      childSum st.dirs cpar (fun e => (st.phys e).compressedBytes) np + c)
    (hnn : (childSum st.dirs (update cpar dd o) (fun e => (st.phys e).uncompressedBytes) np : ℤ) =
      childSum st.dirs cpar (fun e => (st.phys e).uncompressedBytes) np + n) :
    Outcome (dslDirDiduseSpace st.dirs.card st np .child u c n)
      (fun st' => Moved cpar rpar st st' np .child u c n ∧ Books st' (update cpar dd o) rpar)
      (NoRoom st u c n) := by
  have hb := h.balanced np hnp
  have hb1 := hb.child
  have hb2 := hb.compressed
  have hb3 := hb.uncompressed
  refine (h.diduseSpace hf hnp hc hr (by omega) (by omega) (by omega)).imp (fun st' hm => ⟨hm, ?_⟩) id
  refine hm.books (fun e he hce => (h.way hf hnp hc hr).recount hf hup e he (by tauto)) ?_ ?_
    (by omega) (by omega) h fun q hq e => ⟨update_iff (hout q hq) e, .rfl⟩
  · simp only [DirPhys.add, update_self]
    omega
  · rw [← hb.childRsrv]
    simp [DirPhys.add]

theorem Books.moveRsrv (hout : ∀ q, q ≠ np → rpar dd ≠ some q ∧ o ≠ some q)
    (hu : (childSum st.dirs (update rpar dd o)
        (fun e => (st.phys e).reserved - (st.phys e).usedBytes) np : ℤ) =
      childSum st.dirs rpar (fun e => (st.phys e).reserved - (st.phys e).usedBytes) np + u) :
    Outcome (dslDirDiduseSpace st.dirs.card st np .childRsrv u 0 0)
      (fun st' => Moved cpar rpar st st' np .childRsrv u 0 0 ∧ Books st' cpar (update rpar dd o))
      (NoRoom st u 0 0) := by
  have hb := h.balanced np hnp
  have hb1 := hb.childRsrv
  have hb2 := hb.compressed
  have hb3 := hb.uncompressed
  refine (h.diduseSpace hf hnp hc hr (by omega) (by omega) (by omega)).imp (fun st' hm => ⟨hm, ?_⟩) id
  refine hm.books (fun e he hce => (h.way hf hnp hc hr).recount hf hup e he (by tauto)) ?_ ?_
    (by omega) (by omega) h fun q hq e => ⟨.rfl, update_iff (hout q hq) e⟩
  · rw [← hb.child]
    simp [DirPhys.add]
  · simp only [DirPhys.add, update_self]
    omega

end Move

theorem Kept.update_of_above (hk : Kept st st') (h : ¬st.Above d dd) :
    ∀ e, st'.Above d e → update st.parent dd o e = st'.parent e := by
  rw [above_congr hk.parent, hk.parent]
  intro e he
  refine update_of_ne ?_ ..
  rintro rfl
  exact h he

theorem Books.rsrv_zero (h : Books st cpar rpar)
    (hz : (st.phys dd).reserved ≤ (st.phys dd).usedBytes)
    (hagree : ∀ x, x ≠ dd → rpar x = rpar' x) : Books st cpar rpar' := by
  refine ⟨h.summed, fun d hd => ?_⟩
  obtain ⟨h1, h2, h3, h4⟩ := h.balanced d hd
  exact ⟨h1, h2.trans (childSum_of_zero (Nat.sub_eq_zero_of_le hz) hagree), h3, h4⟩

/-- No directory has more than `dd` brings in addition. -/
def Within (st st' : State) (u c n : ℤ) : Prop :=
  ∀ a, ((st'.phys a).usedBytes : ℤ) ≤ (st.phys a).usedBytes + u ∧
    ((st'.phys a).compressedBytes : ℤ) ≤ (st.phys a).compressedBytes + c ∧
    ((st'.phys a).uncompressedBytes : ℤ) ≤ (st.phys a).uncompressedBytes + n

theorem renameRsrv_spec {st2 : State} (hf : Forest st rank) (hdd : dd ∈ st.dirs)
    (hnp : np ∈ st.dirs) (hp : st.parent dd = some op) (hup : ¬st.Above np dd) (hk : Kept st st2)
    (hb : Books st2 (update st.parent dd (some np)) st.parent)
    (hphys : st2.phys dd = st.phys dd)
    (hwithin : Within st st2 (st.phys dd).usedBytes (st.phys dd).compressedBytes
      (st.phys dd).uncompressedBytes) :
    Outcome (if (st2.phys dd).usedBytes < (st2.phys dd).reserved then do
        let st ← dslDirDiduseSpace st2.dirs.card st2 op .childRsrv
          (-((st2.phys dd).reserved - (st2.phys dd).usedBytes : ℕ)) 0 0
        dslDirDiduseSpace st.dirs.card st np .childRsrv
          ((st2.phys dd).reserved - (st2.phys dd).usedBytes : ℕ) 0 0
      else .ok st2)
      (fun st' => Kept st st' ∧ Books st' (update st.parent dd (some np))
        (update st.parent dd (some np)))
      (NoRoom st (max (st.phys dd).usedBytes (st.phys dd).reserved : ℕ)
        (st.phys dd).compressedBytes (st.phys dd).uncompressedBytes) := by
  have hop := hf.mem dd hdd op hp
  have hupo := hf.not_above_parent hdd hp
  have habove := above_congr hk.parent
  split
  · next hlt =>
    have hsum := childSum_update_none (fun e => (st2.phys e).reserved - (st2.phys e).usedBytes)
      (hk.dirs ▸ hdd) hp
    refine (hb.moveRsrv (o := none) (hf.kept hk) (hk.dirs ▸ hop) (hk.update_of_above hupo)
      (fun _ _ => by rw [hk.parent]) (habove ▸ hupo) (fun q hq => ⟨hp ▸ ne_some_of_ne hq, nofun⟩)
      (by omega)).bind (fun st3 h₃ => ?_) fun hno => ?_
    · obtain ⟨hm3, hb₃⟩ := h₃
      have hk3 := hk.trans hm3.toKept
      have hphys3 : st3.phys dd = st2.phys dd := hm3.frame dd (habove ▸ hupo)
      have hsum3 := childSum_update_some (fun e => (st3.phys e).reserved - (st3.phys e).usedBytes)
        np (hk3.dirs ▸ hdd) (update_self dd none st.parent)
      refine (hb₃.moveRsrv (hf.kept hk3) (hk3.dirs ▸ hnp) (hk3.update_of_above hup)
        (hk3.update_of_above hup) (above_congr hk3.parent ▸ hup)
        (fun q hq => ⟨by simp, ne_some_of_ne hq⟩)
        (by rw [← hphys3]; omega)).imp (fun st4 h₄ => ?_) fun hno => ?_
      · obtain ⟨hm4, hb4⟩ := h₄
        rw [update_idem] at hb4
        exact ⟨hk3.trans hm4.toKept, hb4⟩
      obtain ⟨a, ha, hfull⟩ := hno
      refine ⟨a, hk3.dirs ▸ ha, ?_⟩
      have h1 := hwithin a
      have h2 := hm3.used_le a
      have h3 := hm3.compressed_le a
      have h4 := hm3.uncompressed_le a
      rw [hphys] at hfull hlt h2
      omega
    · obtain ⟨a, ha, hfull⟩ := hno
      have h1 := hwithin a
      exact ⟨a, hk.dirs ▸ ha, by omega⟩
  · next hge => exact .inl ⟨st2, rfl, hk, hb.rsrv_zero (Nat.le_of_not_lt hge) fun x hx =>
      (update_of_ne hx ..).symm⟩

theorem renameSpace_spec (h : Books st st.parent st.parent) (hf : Forest st rank)
    (hdd : dd ∈ st.dirs) (hnp : np ∈ st.dirs) (hp : st.parent dd = some op)
    (hup : ¬st.Above np dd) :
    Outcome (renameSpace st dd op np)
      (fun st' => Kept st st' ∧ Books st' (update st.parent dd (some np))
        (update st.parent dd (some np)))
      (NoRoom st (max (st.phys dd).usedBytes (st.phys dd).reserved : ℕ)
        (st.phys dd).compressedBytes (st.phys dd).uncompressedBytes) := by
  have hupo := hf.not_above_parent hdd hp
  have hleave := fun f : DirPhys → ℕ => childSum_update_none (fun e => f (st.phys e)) hdd hp
  have hleave1 := hleave (·.usedBytes)
  have hleave2 := hleave (·.compressedBytes)
  have hleave3 := hleave (·.uncompressedBytes)
  refine (h.move (o := none) hf (hf.mem dd hdd op hp) (fun _ _ => rfl) (fun _ _ => rfl) hupo
    (fun q hq => ⟨hp ▸ ne_some_of_ne hq, nofun⟩) (by omega) (by omega) (by omega)).bind
    (fun st1 ⟨hm1, hb₁⟩ => ?_) fun ⟨a, ha, hfull⟩ => ⟨a, ha, by omega⟩
  have hphys1 : st1.phys dd = st.phys dd := hm1.frame dd hupo
  have habove1 := above_congr hm1.parent
  have hjoin := fun f : DirPhys → ℕ => childSum_update_some (fun e => f (st1.phys e)) np
    (hm1.dirs ▸ hdd) (update_self dd none st.parent)
  have hjoin1 := hjoin (·.usedBytes)
  have hjoin2 := hjoin (·.compressedBytes)
  have hjoin3 := hjoin (·.uncompressedBytes)
  refine (hb₁.move (hf.kept hm1.toKept) (hm1.dirs ▸ hnp) (hm1.toKept.update_of_above hup)
    (fun _ _ => by rw [hm1.parent]) (habove1 ▸ hup)
    (fun q hq => ⟨by simp, ne_some_of_ne hq⟩) (by omega) (by omega)
    (by omega)).bind (fun st2 h₂ => ?_) fun hno => ?_
  · obtain ⟨hm2, hb₂⟩ := h₂
    rw [update_idem] at hb₂
    refine renameRsrv_spec hf hdd hnp hp hup (hm1.toKept.trans hm2.toKept) hb₂ ?_ fun a => ?_
    · rw [hm2.frame dd (habove1 ▸ hup), hphys1]
    have h1 := hm1.used_le a
    have h2 := hm1.compressed_le a
    have h3 := hm1.uncompressed_le a
    have h4 := hm2.used_le a
    have h5 := hm2.compressed_le a
    have h6 := hm2.uncompressed_le a
    rw [hphys1] at h4 h5 h6
    omega
  · obtain ⟨a, ha, hfull⟩ := hno
    refine ⟨a, hm1.dirs ▸ ha, ?_⟩
    have h1 := hm1.used_le a
    have h2 := hm1.compressed_le a
    have h3 := hm1.uncompressed_le a
    rw [hphys1] at hfull
    omega

theorem State.setParent_parent (st : State) (dd p : ℕ) :
    (st.setParent dd p).parent = update st.parent dd (some p) := by
  funext e
  unfold State.parent State.setParent
  by_cases he : e = dd
  · subst he
    rw [set_phys_self, update_self]
  · rw [set_phys_of_ne _ _ he, update_of_ne he]

theorem Books.setParent (h : Books st cpar rpar) (p : ℕ) : Books (st.setParent dd p) cpar rpar := by
  have hf := fun {α : Type} (f : DirPhys → α) (hd : f { st.phys dd with ddParent := some p } =
    f (st.phys dd)) => set_field st f hd
  have hsame : ∀ e, SameSpace (st.phys e) ((st.setParent dd p).phys e) := fun e =>
    ⟨(hf (·.usedBytes) rfl e).symm, (hf (·.compressedBytes) rfl e).symm,
      (hf (·.uncompressedBytes) rfl e).symm, (hf (·.reserved) rfl e).symm⟩
  have hb := hf (·.usedBreakdown) rfl
  refine ⟨fun d hd => ?_, fun d hd => ?_⟩
  · obtain ⟨h1, h2, h3, -⟩ := hsame d
    unfold Summed
    rw [← h1, ← h2, ← h3, State.setParent, hb]
    exact h.summed d hd
  · exact (h.balanced d hd).congr (hb d) (hsame d).2.1.symm (hsame d).2.2.1.symm
      (fun _ _ => Iff.rfl) (fun _ _ => Iff.rfl) (fun e _ _ => hsame e) fun e _ _ => hsame e

theorem Forest.setParent (h : Forest st rank) (hnp : np ∈ st.dirs)
    (hup : ¬st.Above np dd) : ∃ rank', Forest (st.setParent dd np) rank' := by
  classical
  have hpar := setParent_parent st dd np
  refine ⟨fun x => if st.Above x dd then rank x + rank np + 1 else rank x, ?_, ?_, ?_⟩
  · intro d hd p hp
    rw [hpar] at hp
    by_cases hdd' : d = dd
    · subst hdd'
      rw [update_self] at hp
      exact some.inj hp ▸ hnp
    · rw [update_of_ne hdd'] at hp
      exact h.mem d hd p hp
  · intro d hd p hp
    rw [hpar] at hp
    by_cases hdd' : d = dd
    · subst hdd'
      rw [update_self] at hp
      cases hp
      rw [if_neg hup, if_pos .refl]
      omega
    rw [update_of_ne hdd'] at hp
    have hlt := h.lt d hd p hp
    by_cases hpd : st.Above p dd
    · rw [if_pos hpd, if_pos (.head hp hpd)]
      omega
    · rw [if_neg hpd]
      split <;> omega
  · intro d hd
    exact (set_field st (·.flagUsedBreakdown) (d := { st.phys dd with ddParent := some np }) rfl d).trans
      (h.flags d hd)

theorem Forest.exists_root (h : Forest st rank) (hd : d ∈ st.dirs) :
    ∃ r ∈ st.dirs, st.Above d r ∧ st.parent r = none := by
  induction hn : rank d using Nat.strong_induction_on generalizing d with
  | _ n ih =>
    cases hp : st.parent d with
    | none => exact ⟨d, hd, .refl, hp⟩
    | some p =>
      obtain ⟨r, hr, ha, hroot⟩ := ih (rank p) (hn ▸ h.lt d hd p hp) (h.mem d hd p hp) rfl
      exact ⟨r, hr, .head hp ha, hroot⟩

theorem Inv.rename (h : Inv st) (hl : Legal st (.rename dd np)) : Outcome (dslDirRenameSync st dd np) Inv
      (NoRoom st (max (st.phys dd).usedBytes (st.phys dd).reserved : ℕ)
        (st.phys dd).compressedBytes (st.phys dd).uncompressedBytes) := by
  obtain ⟨⟨rank, hf⟩, hroot, hb⟩ := h
  obtain ⟨hdd, hnp, hup⟩ := hl
  -- the root cannot be renamed, as everything is below it
  obtain ⟨op, hp⟩ : ∃ op, st.parent dd = some op := by
    cases hp : st.parent dd with
    | some op => exact ⟨op, rfl⟩
    | none =>
      obtain ⟨r, hr, ha, hnone⟩ := hf.exists_root hnp
      exact absurd (hroot dd hdd r hr hp hnone ▸ ha) hup
  have hp' : (st.phys dd).ddParent = some op := hp
  have hend : ∀ st4, Kept st st4 → Books st4 (update st.parent dd (some np))
      (update st.parent dd (some np)) → Inv (st4.setParent dd np) := by
    intro st4 hk hb4
    have hpar : (st4.setParent dd np).parent = update st.parent dd (some np) := by
      rw [setParent_parent, hk.parent]
    have habove := above_congr hk.parent
    refine ⟨(hf.kept hk).setParent (hk.dirs ▸ hnp) (habove ▸ hup), ?_, ?_⟩
    · have hne : ∀ d, (st4.setParent dd np).parent d = none → st.parent d = none := by
        intro d hd
        rw [hpar] at hd
        by_cases hdd' : d = dd
        · subst hdd'
          rw [update_self] at hd
          cases hd
        · rwa [update_of_ne hdd'] at hd
      intro d hd d' hd' h1 h2
      exact hroot d (hk.dirs ▸ hd) d' (hk.dirs ▸ hd') (hne d h1) (hne d' h2)
    · rw [hpar]
      exact hb4.setParent np
  unfold dslDirRenameSync
  simp only [hp']
  split
  · exact (renameSpace_spec hb hf hdd hnp hp hup).bind
      (fun st4 ⟨hk, hb4⟩ => .inl ⟨_, rfl, hend st4 hk hb4⟩) id
  next hsame =>
  have hop : op = np := (not_not.1 hsame).symm
  subst hop
  refine .inl ⟨_, rfl, hend st ⟨rfl, rfl, fun _ => rfl, fun _ => rfl, fun _ => id⟩ ?_⟩
  rwa [← hp, update_eq_self]

end Rename

/-! ### Create and destroy -/

theorem createSync_parent_of_ne {pds o : ℕ} (he : e ≠ o) :
    (dslDirCreateSync v st (some pds) o).parent e = st.parent e := by
  show (update st.phys o (newDir v (some pds)) e).ddParent = _
  rw [update_of_ne he]
  rfl

theorem newDir_summed (v : ℕ) (pds : Option ℕ) : Summed (newDir v pds) := by
  refine ⟨rfl, ?_, ?_, ?_⟩ <;> exact Nat.two_pow_pos 64

theorem Balanced.leaf {dirs : Finset ℕ} {par : ℕ → Option ℕ} {phys : ℕ → DirPhys}
    {pds : Option ℕ} (h : ∀ e ∈ dirs, par e ≠ some d) (hd : phys d = newDir v pds) :
    Balanced dirs par par phys d := by
  refine ⟨?_, ?_, (childSum_eq_zero h).trans_le (Nat.zero_le _),
    (childSum_eq_zero h).trans_le (Nat.zero_le _)⟩
  · rw [hd]
    exact (childSum_eq_zero h).symm
  · rw [hd]
    exact (childSum_eq_zero h).symm

theorem Inv.create {pds o : ℕ} (hv : spaVersionUsedBreakdown ≤ v) (h : Inv st)
    (hl : Legal st (.create pds o)) : Inv (dslDirCreateSync v st (some pds) o) := by
  obtain ⟨⟨rank, hf⟩, hroot, hb⟩ := h
  obtain ⟨hpds, ho⟩ := hl
  have hne : ∀ e ∈ st.dirs, e ≠ o := by
    rintro e he rfl
    exact ho he
  have hphys : ∀ e ∈ st.dirs, (dslDirCreateSync v st (some pds) o).phys e = st.phys e :=
    fun e he => update_of_ne (hne e he) ..
  have hpar : ∀ e ∈ st.dirs, (dslDirCreateSync v st (some pds) o).parent e = st.parent e :=
    fun e he => createSync_parent_of_ne (hne e he)
  have hnew : (dslDirCreateSync v st (some pds) o).phys o = newDir v (some pds) := update_self ..
  have hpnew : (dslDirCreateSync v st (some pds) o).parent o = some pds := by
    unfold State.parent
    rw [hnew]
    rfl
  refine ⟨⟨update rank o (rank pds + 1), ?_, ?_, ?_⟩, ?_, ?_, ?_⟩
  · intro d hd p hp
    rcases Finset.mem_insert.1 hd with rfl | hd
    · rw [hpnew] at hp
      exact mem_insert_of_mem (some.inj hp ▸ hpds)
    · rw [hpar d hd] at hp
      exact mem_insert_of_mem (hf.mem d hd p hp)
  · intro d hd p hp
    rcases Finset.mem_insert.1 hd with rfl | hd
    · rw [hpnew] at hp
      cases hp
      rw [update_self, update_of_ne (hne _ hpds)]
      omega
    · rw [hpar d hd] at hp
      rw [update_of_ne (hne d hd), update_of_ne (hne p (hf.mem d hd p hp))]
      exact hf.lt d hd p hp
  · intro d hd
    rcases Finset.mem_insert.1 hd with rfl | hd
    · rw [hnew]
      exact decide_eq_true hv
    · rw [hphys d hd]
      exact hf.flags d hd
  · intro d hd d' hd' h1 h2
    rcases Finset.mem_insert.1 hd with rfl | hd
    · rw [hpnew] at h1
      cases h1
    rcases Finset.mem_insert.1 hd' with rfl | hd'
    · rw [hpnew] at h2
      cases h2
    exact hroot d hd d' hd' (hpar d hd ▸ h1) (hpar d' hd' ▸ h2)
  · intro d hd
    rcases Finset.mem_insert.1 hd with rfl | hd
    · rw [hnew]
      exact newDir_summed v _
    · rw [hphys d hd]
      exact hb.summed d hd
  · intro d hd
    rcases Finset.mem_insert.1 hd with rfl | hd
    · refine .leaf (fun e he => ?_) hnew
      rcases Finset.mem_insert.1 he with rfl | he
      · rw [hpnew]
        exact fun heq => ho (some.inj heq ▸ hpds)
      · rw [hpar e he]
        exact fun heq => ho (hf.mem e he d heq)
    have hsum : ∀ f : DirPhys → ℕ, f (newDir v (some pds)) = 0 →
        childSum (insert o st.dirs) (dslDirCreateSync v st (some pds) o).parent
          (fun e => f ((dslDirCreateSync v st (some pds) o).phys e)) d =
        childSum st.dirs st.parent (fun e => f (st.phys e)) d := by
      intro f hz
      refine childSum_insert ho (fun x hx => ?_) (fun x hx _ => ?_) ?_
      · rw [hpar x hx]
      · rw [hphys x hx]
      · rw [hnew, hz]
    obtain ⟨h1, h2, h3, h4⟩ := hb.balanced d hd
    refine ⟨?_, ?_, ?_, ?_⟩
    · rw [hphys d hd, h1]
      exact (hsum (·.usedBytes) rfl).symm
    · rw [hphys d hd, h2]
      exact (hsum (fun d => d.reserved - d.usedBytes) rfl).symm
    · rw [hphys d hd]
      exact (hsum (·.compressedBytes) rfl).trans_le h3
    · rw [hphys d hd]
      exact (hsum (·.uncompressedBytes) rfl).trans_le h4

theorem Inv.room (h : Inv st) (hδ : δ ≤ 0) : ¬NoRoom st δ 0 0 := by
  rintro ⟨a, ha, hfull⟩
  obtain ⟨-, h1, h2, h3⟩ := h.books.summed a ha
  omega

theorem Inv.destroy (h : Inv st) (hl : Legal st (.destroy dd)) :
    ∃ st', dslDirDestroySync st dd = .ok st' ∧ Inv st' := by
  obtain ⟨hdd, -, hleaf, hused⟩ := hl
  unfold dslDirDestroySync
  rcases h.setReservation hdd 0 with ⟨st1, hok, hi, hdirs, hpar, hphys⟩ | ⟨-, hno⟩
  · rw [hok]
    refine ⟨_, rfl, ?_⟩
    obtain ⟨⟨rank, hf⟩, hroot, hb⟩ := hi
    have hmem : ∀ {d}, d ∈ st1.dirs.erase dd → d ∈ st1.dirs := mem_of_mem_erase
    have hz : (st1.phys dd).usedBytes = 0 ∧ (st1.phys dd).reserved = 0 := by
      rw [hphys]
      exact ⟨hused, rfl⟩
    refine ⟨⟨rank, fun d hd p hp => ?_, fun d hd => hf.lt d (hmem hd),
      fun d hd => hf.flags d (hmem hd)⟩, fun d hd d' hd' => hroot d (hmem hd) d' (hmem hd'),
      fun d hd => hb.summed d (hmem hd), fun d hd => ?_⟩
    · refine Finset.mem_erase.2 ⟨?_, hf.mem d (hmem hd) p hp⟩
      rintro rfl
      exact hleaf d (hdirs ▸ hmem hd) (hpar ▸ hp)
    obtain ⟨h1, h2, h3, h4⟩ := hb.balanced d (hmem hd)
    have hrsrv : (st1.phys dd).reserved - (st1.phys dd).usedBytes = 0 := by rw [hz.2, Nat.zero_sub]
    exact ⟨h1.trans (childSum_erase_of_zero (f := fun e => (st1.phys e).usedBytes) hz.1).symm,
      h2.trans (childSum_erase_of_zero
        (f := fun e => (st1.phys e).reserved - (st1.phys e).usedBytes) hrsrv).symm,
      childSum_erase_le.trans h3, childSum_erase_le.trans h4⟩
  · exact absurd hno (h.room (by omega))

/-! ## Every run -/

/-- The space an operation may add to a directory. -/
def Op.space (st : State) : Op → ℤ × ℤ × ℤ
  | .diduseSpace _ _ used compressed uncompressed => (used, compressed, uncompressed)
  | .setReservation dd v =>
    (max ((st.phys dd).usedBytes : ℤ) v -
      max ((st.phys dd).usedBytes : ℤ) (st.phys dd).reserved, 0, 0)
  | .rename dd _ =>
    ((max (st.phys dd).usedBytes (st.phys dd).reserved : ℕ), (st.phys dd).compressedBytes,
      (st.phys dd).uncompressedBytes)
  | .create _ _ => (0, 0, 0)
  | .destroy _ => (0, 0, 0)

theorem Inv.step {op : Op} (hv : spaVersionUsedBreakdown ≤ v) (h : Inv st) (hl : Legal st op) :
    Outcome (step v st op) Inv
      (NoRoom st (op.space st).1 (op.space st).2.1 (op.space st).2.2) := by
  cases op with
  | diduseSpace dd type used compressed uncompressed => exact h.diduseSpace hl
  | setReservation dd value => exact (h.setReservation hl.1 value).imp (fun _ hi => hi.1) id
  | rename dd newparent => exact h.rename hl
  | create pds ddobj => exact .inl ⟨_, rfl, h.create hv hl⟩
  | destroy dd => exact .inl (h.destroy hl)

inductive Reachable (v : ℕ) (st0 : State) : State → Prop
  | start : Reachable v st0 st0
  | step {st st' : State} {o : Op} : Reachable v st0 st → Legal st o →
      step v st o = .ok st' → Reachable v st0 st'

theorem Reachable.inv {st0 : State} (hv : spaVersionUsedBreakdown ≤ v) (h0 : Inv st0)
    (h : Reachable v st0 st) : Inv st := by
  induction h with
  | start => exact h0
  | step _ hl hs ih =>
    rcases ih.step hv hl with ⟨st', hok, hi⟩ | ⟨herr, -⟩
    · rw [hs] at hok
      cases hok
      exact hi
    · rw [hs] at herr
      cases herr

theorem inv_root (hv : spaVersionUsedBreakdown ≤ v) (phys : ℕ → DirPhys) (root : ℕ) :
    Inv (dslDirCreateSync v ⟨∅, phys⟩ none root) := by
  have hdirs : ∀ d ∈ (dslDirCreateSync v ⟨∅, phys⟩ none root).dirs, d = root := by
    intro d hd
    rcases Finset.mem_insert.1 hd with hd | hd
    · exact hd
    · cases hd
  have hphys : (dslDirCreateSync v ⟨∅, phys⟩ none root).phys root = newDir v none := update_self ..
  have hpar : (dslDirCreateSync v ⟨∅, phys⟩ none root).parent root = none := by
    unfold State.parent
    rw [hphys]
    rfl
  have hleaf : ∀ d, ∀ e ∈ (dslDirCreateSync v ⟨∅, phys⟩ none root).dirs,
      (dslDirCreateSync v ⟨∅, phys⟩ none root).parent e ≠ some d := by
    intro d e he heq
    rw [hdirs e he, hpar] at heq
    cases heq
  refine ⟨⟨fun _ => 0, ?_, ?_, ?_⟩, ?_, ?_, ?_⟩
  · exact fun d hd p hp => absurd hp (hleaf p d hd)
  · exact fun d hd p hp => absurd hp (hleaf p d hd)
  · intro d hd
    rw [hdirs d hd, hphys]
    exact decide_eq_true hv
  · intro d hd d' hd' _ _
    rw [hdirs d hd, hdirs d' hd']
  · intro d hd
    rw [hdirs d hd, hphys]
    exact newDir_summed v none
  · intro d hd
    rw [hdirs d hd]
    exact .leaf (hleaf root) hphys

/-- From a tree of directories whose counters add up, every sequence of operations leads to
such trees: what a directory uses is the sum of its breakdown, of which one part is what its
children use and one what is reserved for them and unused. And every further operation
completes, without a counter wrapping below zero, unless some directory has no room. -/
theorem dsl_dir_accounting {v : ℕ} {st0 : State} (hv : spaVersionUsedBreakdown ≤ v)
    (h0 : Inv st0) (h : Reachable v st0 st) :
    (∀ d ∈ st.dirs, (st.phys d).usedBytes = total (st.phys d).usedBreakdown ∧
      (st.phys d).usedBreakdown .child =
        ∑ e ∈ st.dirs with st.parent e = some d, (st.phys e).usedBytes ∧
      (st.phys d).usedBreakdown .childRsrv =
        ∑ e ∈ st.dirs with st.parent e = some d,
          ((st.phys e).reserved - (st.phys e).usedBytes)) ∧
      ∀ op, Legal st op → (∃ st', DslDir.step v st op = .ok st') ∨
        (DslDir.step v st op = .error .above ∧
          NoRoom st (op.space st).1 (op.space st).2.1 (op.space st).2.2) := by
  have hi := h.inv hv h0
  refine ⟨fun d hd => ⟨(hi.books.summed d hd).1, (hi.books.balanced d hd).child,
    (hi.books.balanced d hd).childRsrv⟩, fun op hl => ?_⟩
  rcases hi.step hv hl with ⟨st', hok, -⟩ | hfull
  · exact .inl ⟨st', hok⟩
  · exact .inr hfull

/-- A pool with a root directory, number 1. -/
def onlyRoot : State :=
  dslDirCreateSync 13 ⟨∅, fun _ => newDir 13 none⟩ none 1

theorem dsl_dir_accounting_reserved :
    ∃ st, Reachable 13 onlyRoot st ∧ st.dirs = {1, 2} ∧ (st.phys 1).usedBytes = 10 ∧
      (st.phys 1).usedBreakdown .childRsrv =
        ∑ e ∈ st.dirs with st.parent e = some 1, ((st.phys e).reserved - (st.phys e).usedBytes) := by
  have hr : ∃ st, Reachable 13 onlyRoot st ∧ st.dirs = {1, 2} ∧ (st.phys 1).usedBytes = 10 := by
    refine ⟨_, .step (o := .diduseSpace 2 .head 4 4 4) (.step (o := .setReservation 2 10)
      (.step (o := .create 1 2) .start ?_ rfl) ?_ rfl) ?_ rfl, ?_, ?_⟩
    · exact ⟨by decide, by decide⟩
    · exact ⟨by decide, by decide⟩
    · exact ⟨by decide, by decide, by decide, by decide, by decide⟩
    · decide
    · decide
  obtain ⟨st, hreach, hdirs, hused⟩ := hr
  exact ⟨st, hreach, hdirs, hused, ((dsl_dir_accounting (by decide) (inv_root (by decide) _ 1)
    hreach).1 1 (by rw [hdirs]; decide)).2.2⟩

/-- Two directories are created in the root, and the compressed and uncompressed bytes of one are
taken off the root again, which has them: its counters are zero then. When the directory is moved
into the other one they wrap. -/
theorem rename_wraps_below : ∃ st, (do
      let st ← DslDir.step 13 onlyRoot (.create 1 2)
      let st ← DslDir.step 13 st (.create 1 3)
      let st ← DslDir.step 13 st (.diduseSpace 2 .head 10 10 10)
      DslDir.step 13 st (.diduseSpace 1 .head 0 (-10) (-10))) = .ok st ∧
    ((st.phys 1).compressedBytes, (st.phys 1).uncompressedBytes) = (0, 0) ∧
    Legal st (.rename 2 3) ∧ DslDir.step 13 st (.rename 2 3) = .error .below := by
  refine ⟨_, rfl, rfl, ⟨by decide, by decide, fun h => ?_⟩, rfl⟩
  rcases h.cases_head with h | ⟨p, hp, h⟩
  · cases h
  obtain rfl : 1 = p := Option.some.inj hp
  rcases h.cases_head with h | ⟨p, hp, -⟩
  · cases h
  · cases hp

end Osol.Zfs.DslDir
