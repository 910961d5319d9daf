import Osol.Zfs.DslDir.Basic

/-!
# Propagating a change of space

`dsl_dir_diduse_space` changes the counters of a directory and repairs those of its
ancestors. `Balanced` says that the counters of one directory agree with those of its
children, where a child may count for another directory than its parent: in the course of a
rename it does.
-/

namespace Osol.Zfs.DslDir

open Osol.Lib Function State Finset

variable {st st' : State} {cpar rpar : ℕ → Option ℕ} {rank : ℕ → ℕ} {dd : ℕ} {t : DdUsed}
  {δ δc δu : ℤ}

/-! ## Counters of one directory -/

variable (b : DdUsed → ℕ)

/-- The sum of a breakdown. -/
def total : ℕ :=
  b .head + b .snap + b .child + b .childRsrv + b .refRsrv

theorem le_total (t : DdUsed) : b t ≤ total b := by
  unfold total
  cases t <;> omega

theorem total_update (t : DdUsed) (v : ℕ) : total (update b t v) + b t = total b + v := by
  unfold total
  cases t <;> simp <;> omega

/-- The space used is the sum of the breakdown, and the counters are words. -/
def Summed (d : DirPhys) : Prop :=
  d.usedBytes = total d.usedBreakdown ∧ d.usedBytes < 2 ^ 64 ∧ d.compressedBytes < 2 ^ 64 ∧
    d.uncompressedBytes < 2 ^ 64

/-- The directory after a change of its own counters. -/
def DirPhys.add (d : DirPhys) (t : DdUsed) (δ δc δu : ℤ) : DirPhys :=
  { d with
    usedBytes := (d.usedBytes + δ).toNat
    uncompressedBytes := (d.uncompressedBytes + δu).toNat
    compressedBytes := (d.compressedBytes + δc).toNat
    usedBreakdown := update d.usedBreakdown t (d.usedBreakdown t + δ).toNat }

theorem addDelta_eq {u : ℕ} {d : ℤ} (h : 0 ≤ u + d) (h' : u + d < 2 ^ 64) :
    addDelta u d = .ok (u + d).toNat := by
  rw [addDelta, if_neg (by omega), if_neg (by omega)]

theorem addDelta_above {u : ℕ} {d : ℤ} (h : 2 ^ 64 ≤ u + d) : addDelta u d = .error .above := by
  rw [addDelta, if_neg (by omega), if_pos h]

/-- There is room for a change of the counters. -/
structure Fits (d : DirPhys) (t : DdUsed) (δ δc δu : ℤ) : Prop where
  breakdown : 0 ≤ d.usedBreakdown t + δ
  used : 0 ≤ d.usedBytes + δ
  compressed : 0 ≤ d.compressedBytes + δc
  uncompressed : 0 ≤ d.uncompressedBytes + δu
  used_lt : d.usedBytes + δ < 2 ^ 64
  compressed_lt : d.compressedBytes + δc < 2 ^ 64
  uncompressed_lt : d.uncompressedBytes + δu < 2 ^ 64

theorem Summed.add {d : DirPhys} (h : Summed d) (hfit : Fits d t δ δc δu) : Summed (d.add t δ δc δu) := by
  have htotal := total_update d.usedBreakdown t (d.usedBreakdown t + δ).toNat
  have hsum := h.1
  obtain ⟨h1, h2, h3, h4, h5, h6, h7⟩ := hfit
  refine ⟨?_, ?_, ?_, ?_⟩
  · show (d.usedBytes + δ).toNat = total (update _ _ _)
    omega
  · show (d.usedBytes + δ).toNat < 2 ^ 64
    omega
  · show (d.compressedBytes + δc).toNat < 2 ^ 64
    omega
  · show (d.uncompressedBytes + δu).toNat < 2 ^ 64
    omega

theorem diduseHere_spec {d : DirPhys} (hflag : d.flagUsedBreakdown = true) (hs : Summed d)
    (hb : 0 ≤ d.usedBreakdown t + δ) (hc : 0 ≤ d.compressedBytes + δc)
    (hu : 0 ≤ d.uncompressedBytes + δu) :
    (diduseHere d t δ δc δu = .ok (d.add t δ δc δu) ∧ Fits d t δ δc δu) ∨
    (diduseHere d t δ δc δu = .error .above ∧
        (2 ^ 64 ≤ d.usedBytes + δ ∨ 2 ^ 64 ≤ d.compressedBytes + δc ∨
          2 ^ 64 ≤ d.uncompressedBytes + δu)) := by
  have hle := le_total d.usedBreakdown t
  have hsum := hs.1
  unfold diduseHere
  by_cases h1 : 2 ^ 64 ≤ d.usedBytes + δ
  · exact .inr ⟨by rw [addDelta_above h1]; rfl, .inl h1⟩
  rw [addDelta_eq (by omega) (by omega)]
  by_cases h2 : 2 ^ 64 ≤ d.uncompressedBytes + δu
  · exact .inr ⟨by rw [addDelta_above h2]; rfl, .inr (.inr h2)⟩
  rw [addDelta_eq hu (by omega)]
  by_cases h3 : 2 ^ 64 ≤ d.compressedBytes + δc
  · exact .inr ⟨by rw [addDelta_above h3]; rfl, .inr (.inl h3)⟩
  rw [addDelta_eq hc (by omega), hflag, addDelta_eq hb (by omega)]
  refine .inl ⟨by simp only [DirPhys.add, ← hflag]; rfl, hb, ?_, hc, hu, ?_, ?_, ?_⟩ <;> omega

/-! ## Children and parents -/

/-- The counters of `d` agree with those of its children: the directories that count for it
with the space they use (`cpar`) or with their unused reservation (`rpar`). -/
structure Balanced (dirs : Finset ℕ) (cpar rpar : ℕ → Option ℕ) (phys : ℕ → DirPhys) (d : ℕ) :
    Prop where
  child : (phys d).usedBreakdown .child = childSum dirs cpar (fun e => (phys e).usedBytes) d
  childRsrv : (phys d).usedBreakdown .childRsrv =
    childSum dirs rpar (fun e => (phys e).reserved - (phys e).usedBytes) d
  compressed : childSum dirs cpar (fun e => (phys e).compressedBytes) d ≤
    (phys d).compressedBytes
  uncompressed : childSum dirs cpar (fun e => (phys e).uncompressedBytes) d ≤
    (phys d).uncompressedBytes

/-- The directories are a forest, with breakdowns. -/
structure Forest (st : State) (rank : ℕ → ℕ) : Prop where
  mem : ∀ d ∈ st.dirs, ∀ p, st.parent d = some p → p ∈ st.dirs
  lt : ∀ d ∈ st.dirs, ∀ p, st.parent d = some p → rank p < rank d
  flags : ∀ d ∈ st.dirs, (st.phys d).flagUsedBreakdown = true

/-- The directories with a smaller rank, which include the ancestors. -/
def below (st : State) (rank : ℕ → ℕ) (dd : ℕ) : Finset ℕ :=
  st.dirs.filter fun e => rank e < rank dd

variable {p : ℕ}

theorem Forest.below_lt (h : Forest st rank) (hdd : dd ∈ st.dirs)
    (hp : st.parent dd = some p) : (below st rank p).card < (below st rank dd).card := by
  have hlt := h.lt dd hdd p hp
  refine card_lt_card (Finset.ssubset_iff_subset_ne.2 ⟨fun e he => ?_, fun heq => ?_⟩)
  · obtain ⟨he, hlt'⟩ := Finset.mem_filter.1 he
    exact Finset.mem_filter.2 ⟨he, hlt'.trans hlt⟩
  · have hmem : p ∈ below st rank p := heq ▸ Finset.mem_filter.2 ⟨h.mem dd hdd p hp, hlt⟩
    exact absurd (Finset.mem_filter.1 hmem).2 (lt_irrefl _)

theorem below_lt_card (rank : ℕ → ℕ) (hdd : dd ∈ st.dirs) : (below st rank dd).card < st.dirs.card := by
  refine card_lt_card (Finset.filter_ssubset.2 ⟨dd, hdd, lt_irrefl _⟩)

theorem Forest.above (h : Forest st rank) (hdd : dd ∈ st.dirs) {a : ℕ} (ha : st.Above dd a) :
    a ∈ st.dirs ∧ rank a ≤ rank dd := by
  induction ha with
  | refl => exact ⟨hdd, le_refl _⟩
  | tail _ hp ih => exact ⟨h.mem _ ih.1 _ hp, (h.lt _ ih.1 _ hp).le.trans ih.2⟩

theorem Forest.not_above_parent (h : Forest st rank) (hdd : dd ∈ st.dirs)
    (hp : st.parent dd = some p) : ¬st.Above p dd := by
  intro ha
  have := (h.above (h.mem dd hdd p hp) ha).2
  have := h.lt dd hdd p hp
  omega

theorem State.above_congr (h : st'.parent = st.parent) : st'.Above = st.Above := by
  unfold State.Above
  rw [h]

@[simp] theorem State.set_phys_self (st : State) (dd : ℕ) (d : DirPhys) : (st.set dd d).phys dd = d :=
  update_self ..

theorem State.set_phys_of_ne (st : State) {dd e : ℕ} (d : DirPhys) (h : e ≠ dd) :
    (st.set dd d).phys e = st.phys e :=
  update_of_ne h ..

theorem State.set_field {α : Type} (st : State) {dd : ℕ} {d : DirPhys} (f : DirPhys → α)
    (h : f d = f (st.phys dd)) (e : ℕ) : f ((st.set dd d).phys e) = f (st.phys e) := by
  by_cases he : e = dd
  · subst he
    rw [set_phys_self, h]
  · rw [set_phys_of_ne _ _ he]

theorem State.set_parent (st : State) (dd : ℕ) {d : DirPhys}
    (h : d.ddParent = (st.phys dd).ddParent) : (st.set dd d).parent = st.parent :=
  funext (set_field st (·.ddParent) h)

/-- What a directory shows to the one it counts for. -/
def SameSpace (d d' : DirPhys) : Prop :=
  d.usedBytes = d'.usedBytes ∧ d.compressedBytes = d'.compressedBytes ∧
    d.uncompressedBytes = d'.uncompressedBytes ∧ d.reserved = d'.reserved

theorem SameSpace.of_eq {d d' : DirPhys} (h : d = d') : SameSpace d d' := by
  subst h
  exact ⟨rfl, rfl, rfl, rfl⟩

theorem SameSpace.set_of_ne {st : State} {dd e q : ℕ} {d : DirPhys} {par : ℕ → Option ℕ}
    (h : par dd ≠ some q) (he : par e = some q) : SameSpace (st.phys e) ((st.set dd d).phys e) := by
  refine .of_eq (set_phys_of_ne _ _ ?_).symm
  rintro rfl
  exact h he

variable {dirs : Finset ℕ} {phys phys' : ℕ → DirPhys}

theorem Balanced.congr {cpar' rpar' : ℕ → Option ℕ} {d : ℕ} (h : Balanced dirs cpar rpar phys d)
    (hb : (phys' d).usedBreakdown = (phys d).usedBreakdown)
    (hcd : (phys' d).compressedBytes = (phys d).compressedBytes)
    (hud : (phys' d).uncompressedBytes = (phys d).uncompressedBytes)
    (hcp : ∀ e ∈ dirs, cpar e = some d ↔ cpar' e = some d)
    (hrp : ∀ e ∈ dirs, rpar e = some d ↔ rpar' e = some d)
    (hc : ∀ e ∈ dirs, cpar e = some d → SameSpace (phys e) (phys' e))
    (hr : ∀ e ∈ dirs, rpar e = some d → SameSpace (phys e) (phys' e)) :
    Balanced dirs cpar' rpar' phys' d := by
  refine ⟨?_, ?_, ?_, ?_⟩
  · rw [hb, h.child]
    exact childSum_congr hcp fun e h1 h2 => (hc e h1 h2).1
  · rw [hb, h.childRsrv]
    refine childSum_congr hrp fun e h1 h2 => ?_
    obtain ⟨hu, -, -, hres⟩ := hr e h1 h2
    rw [hu, hres]
  · rw [hcd, ← childSum_congr hcp fun e h1 h2 => (hc e h1 h2).2.1]
    exact h.compressed
  · rw [hud, ← childSum_congr hcp fun e h1 h2 => (hc e h1 h2).2.2.1]
    exact h.uncompressed

theorem Balanced.of_eq {d : ℕ} (h : Balanced dirs cpar rpar phys d) (hd : phys' d = phys d)
    (hc : ∀ e ∈ dirs, cpar e = some d → SameSpace (phys e) (phys' e))
    (hr : ∀ e ∈ dirs, rpar e = some d → SameSpace (phys e) (phys' e)) :
    Balanced dirs cpar rpar phys' d :=
  h.congr (congrArg (·.usedBreakdown) hd) (congrArg (·.compressedBytes) hd)
    (congrArg (·.uncompressedBytes) hd) (fun _ _ => Iff.rfl) (fun _ _ => Iff.rfl) hc hr

theorem transfer_spec (st : State) (p : ℕ) (x : ℤ) (hflag : (st.phys p).flagUsedBreakdown = true)
    (hs : Summed (st.phys p)) (hr : 0 ≤ (st.phys p).usedBreakdown .childRsrv - x)
    (hc : 0 ≤ (st.phys p).usedBreakdown .child + x) :
    ∃ d, dslDirTransferSpace st p x .childRsrv .child = .ok (st.set p d) ∧
      d = { st.phys p with usedBreakdown := d.usedBreakdown } ∧
      d.usedBreakdown .childRsrv = (st.phys p).usedBreakdown .childRsrv - x ∧
      d.usedBreakdown .child = (st.phys p).usedBreakdown .child + x ∧
      total d.usedBreakdown = total (st.phys p).usedBreakdown := by
  by_cases hx : x = 0
  · subst hx
    refine ⟨st.phys p, ?_, rfl, by omega, by omega, rfl⟩
    simp [dslDirTransferSpace, State.set]
  obtain ⟨hsum, hlt, -, -⟩ := hs
  generalize hb : (st.phys p).usedBreakdown = b at *
  have htwo : b .childRsrv + b .child ≤ total b := by
    unfold total
    omega
  have h1 := total_update b .childRsrv (b .childRsrv - x).toNat
  generalize hb1 : update b .childRsrv (b .childRsrv - x).toNat = b1 at h1
  have hchild : b1 .child = b .child := by simp [← hb1]
  have h2 := total_update b1 .child (b .child + x).toNat
  refine ⟨{ st.phys p with usedBreakdown := update b1 .child (b .child + x).toNat }, ?_, rfl, ?_, ?_, ?_⟩
  · unfold dslDirTransferSpace
    rw [if_neg (by simp [hx, hflag])]
    simp only [hb]
    rw [addDelta_eq (by omega) (by omega), ← sub_eq_add_neg]
    show (addDelta (update b .childRsrv _ .child) x >>= _) = _
    rw [hb1, hchild, addDelta_eq hc (by omega)]
    rfl
  · simp [← hb1]
    omega
  · simp
    omega
  · show total (update _ _ _) = _
    omega

/-! ## The way up -/

/-- What every change of counters keeps. -/
structure Kept (st st' : State) : Prop where
  dirs : st'.dirs = st.dirs
  parent : st'.parent = st.parent
  flags : ∀ e, (st'.phys e).flagUsedBreakdown = (st.phys e).flagUsedBreakdown
  reserved : ∀ e, (st'.phys e).reserved = (st.phys e).reserved
  summed : ∀ d, Summed (st.phys d) → Summed (st'.phys d)

theorem Kept.trans {st1 st2 st3 : State} (h : Kept st1 st2) (h' : Kept st2 st3) : Kept st1 st3 where
  dirs := h'.dirs.trans h.dirs
  parent := h'.parent.trans h.parent
  flags := fun e => (h'.flags e).trans (h.flags e)
  reserved := fun e => (h'.reserved e).trans (h.reserved e)
  summed := fun d hd => h'.summed d (h.summed d hd)

theorem Kept.set {d : DirPhys} (hp : d.ddParent = (st.phys dd).ddParent)
    (hf : d.flagUsedBreakdown = (st.phys dd).flagUsedBreakdown)
    (hr : d.reserved = (st.phys dd).reserved) (hs : Summed (st.phys dd) → Summed d) :
    Kept st (st.set dd d) := by
  refine ⟨rfl, set_parent _ _ hp, set_field _ (·.flagUsedBreakdown) hf, set_field _ (·.reserved) hr,
    fun e he => ?_⟩
  by_cases hed : e = dd
  · subst hed
    rw [set_phys_self]
    exact hs he
  · rwa [set_phys_of_ne _ _ hed]

theorem Forest.kept (h : Forest st rank) (hk : Kept st st') : Forest st' rank := by
  refine ⟨?_, ?_, fun d hd => ?_⟩
  · rw [hk.dirs, hk.parent]
    exact h.mem
  · rw [hk.dirs, hk.parent]
    exact h.lt
  · rw [hk.flags]
    exact h.flags d (hk.dirs ▸ hd)

theorem Forest.set (h : Forest st rank) {d : DirPhys} (hp : d.ddParent = (st.phys dd).ddParent)
    (hf : d.flagUsedBreakdown = (st.phys dd).flagUsedBreakdown) : Forest (st.set dd d) rank := by
  have hpar := set_parent st dd hp
  refine ⟨?_, ?_, fun e he => ?_⟩
  · rw [hpar]
    exact h.mem
  · rw [hpar]
    exact h.lt
  · exact (set_field st (·.flagUsedBreakdown) hf e).trans (h.flags e he)

/-- A change of the counters of `dd` with its propagation. -/
structure Moved (cpar rpar : ℕ → Option ℕ) (st st' : State) (dd : ℕ) (t : DdUsed)
    (δ δc δu : ℤ) : Prop extends Kept st st' where
  start : st'.phys dd = (st.phys dd).add t δ δc δu
  frame : ∀ e, ¬st.Above dd e → st'.phys e = st.phys e
  /-- Where the counters agreed with those of the children, they do still. -/
  balanced : ∀ d, d ≠ dd → Balanced st.dirs cpar rpar st.phys d →
    Balanced st.dirs cpar rpar st'.phys d
  used_le : ∀ e, ((st'.phys e).usedBytes : ℤ) ≤ (st.phys e).usedBytes + max δ 0
  compressed_le : ∀ e, ((st'.phys e).compressedBytes : ℤ) ≤ (st.phys e).compressedBytes + max δc 0
  uncompressed_le : ∀ e,
    ((st'.phys e).uncompressedBytes : ℤ) ≤ (st.phys e).uncompressedBytes + max δu 0

/-- There is no room for a change at `dd` or an ancestor. -/
def Full (st : State) (dd : ℕ) (δ δc δu : ℤ) : Prop :=
  ∃ a, st.Above dd a ∧ (2 ^ 64 ≤ (st.phys a).usedBytes + max δ 0 ∨
    2 ^ 64 ≤ (st.phys a).compressedBytes + max δc 0 ∨
    2 ^ 64 ≤ (st.phys a).uncompressedBytes + max δu 0)

/-- What a propagation from `dd` rests on: the directories on the way up count for their
parents, and the counters there agree with those of the children, except at `dd`. -/
structure Way (cpar rpar : ℕ → Option ℕ) (st : State) (dd : ℕ) : Prop where
  cpar_eq : ∀ e, st.Above dd e → cpar e = st.parent e
  rpar_eq : ∀ e, st.Above dd e → rpar e = st.parent e
  summed : ∀ e, st.Above dd e → Summed (st.phys e)
  balanced : ∀ e, st.Above dd e → e ≠ dd → Balanced st.dirs cpar rpar st.phys e

section Local

variable {d : DirPhys}

theorem ne_some_of_ne {q : ℕ} (hq : q ≠ p) : some p ≠ some q :=
  fun heq => hq (Option.some.inj heq).symm

theorem Balanced.set_of_ne {q : ℕ} (h : Balanced st.dirs cpar rpar st.phys q) (hq : q ≠ dd)
    (hc : cpar dd ≠ some q) (hr : rpar dd ≠ some q) :
    Balanced st.dirs cpar rpar (st.set dd d).phys q :=
  h.of_eq (set_phys_of_ne _ _ hq) (fun _ _ => .set_of_ne hc) fun _ _ => .set_of_ne hr

theorem Way.parent (h : Way cpar rpar st dd) (hf : Forest st rank) (hdd : dd ∈ st.dirs)
    (hp : st.parent dd = some p) (hd : d.ddParent = (st.phys dd).ddParent) :
    Way cpar rpar (st.set dd d) p := by
  have hpar := set_parent st dd hd
  have habove := above_congr hpar
  have hup : ∀ e, st.Above p e → st.Above dd e ∧ e ≠ dd := fun e he => by
    refine ⟨.head hp he, ?_⟩
    rintro rfl
    exact hf.not_above_parent hdd hp he
  refine ⟨fun e he => ?_, fun e he => ?_, fun e he => ?_, fun e he hne => ?_⟩
  · rw [habove] at he
    rw [hpar]
    exact h.cpar_eq e (hup e he).1
  · rw [habove] at he
    rw [hpar]
    exact h.rpar_eq e (hup e he).1
  · rw [habove] at he
    rw [set_phys_of_ne _ _ (hup e he).2]
    exact h.summed e (hup e he).1
  rw [habove] at he
  refine (h.balanced e (hup e he).1 (hup e he).2).set_of_ne (hup e he).2 ?_ ?_
  · rw [h.cpar_eq dd .refl, hp]
    exact ne_some_of_ne hne
  · rw [h.rpar_eq dd .refl, hp]
    exact ne_some_of_ne hne

end Local

theorem Fits.kept (h : Fits (st.phys dd) t δ δc δu) : Kept st (st.set dd ((st.phys dd).add t δ δc δu)) :=
  .set rfl rfl rfl fun hs => hs.add h

theorem Moved.here (hfit : Fits (st.phys dd) t δ δc δu) (hc : cpar dd = none) (hr : rpar dd = none) :
    Moved cpar rpar st (st.set dd ((st.phys dd).add t δ δc δu)) dd t δ δc δu := by
  have hle : ∀ (f : DirPhys → ℕ) {x : ℤ}, (f ((st.phys dd).add t δ δc δu) : ℤ) ≤ f (st.phys dd) + max x 0 →
      ∀ e, (f ((st.set dd ((st.phys dd).add t δ δc δu)).phys e) : ℤ) ≤ f (st.phys e) + max x 0 := by
    intro f x hf e
    by_cases hed : e = dd
    · subst hed
      rwa [set_phys_self]
    · rw [set_phys_of_ne _ _ hed]
      omega
  refine ⟨hfit.kept, set_phys_self .., fun e he => ?_, fun d hd hb => ?_,
    hle (·.usedBytes) ?_, hle (·.compressedBytes) ?_, hle (·.uncompressedBytes) ?_⟩
  · refine set_phys_of_ne _ _ ?_
    rintro rfl
    exact he .refl
  · exact hb.set_of_ne hd (hc ▸ nofun) (hr ▸ nofun)
  · show ((((st.phys dd).usedBytes + δ).toNat : ℕ) : ℤ) ≤ _
    omega
  · show ((((st.phys dd).compressedBytes + δc).toNat : ℕ) : ℤ) ≤ _
    omega
  · show ((((st.phys dd).uncompressedBytes + δu).toNat : ℕ) : ℤ) ≤ _
    omega

theorem Balanced.covers (h : Balanced st.dirs cpar rpar st.phys p) (hdd : dd ∈ st.dirs)
    (hc : cpar dd = some p) (hr : rpar dd = some p) :
    (st.phys dd).usedBytes ≤ (st.phys p).usedBreakdown .child ∧
      (st.phys dd).reserved - (st.phys dd).usedBytes ≤ (st.phys p).usedBreakdown .childRsrv ∧
      (st.phys dd).compressedBytes ≤ (st.phys p).compressedBytes ∧
      (st.phys dd).uncompressedBytes ≤ (st.phys p).uncompressedBytes := by
  refine ⟨?_, ?_, ?_, ?_⟩
  · rw [h.child]
    exact le_childSum (fun e => (st.phys e).usedBytes) hdd hc
  · rw [h.childRsrv]
    exact le_childSum (fun e => (st.phys e).reserved - (st.phys e).usedBytes) hdd hr
  · exact (le_childSum (fun e => (st.phys e).compressedBytes) hdd hc).trans h.compressed
  · exact (le_childSum (fun e => (st.phys e).uncompressedBytes) hdd hc).trans h.uncompressed

/-- The balance of the parent is restored by what it is told: of a change `δ` of the child it
takes the accounted part as used and moves the rest. -/
theorem Balanced.restore
    (h : Balanced dirs cpar rpar phys p) (hdd : dd ∈ dirs) (hc : cpar dd = some p)
    (hr : rpar dd = some p) (hother : ∀ e ∈ dirs, cpar e = some p ∨ rpar e = some p → e ≠ dd →
      SameSpace (phys e) (phys' e)) (hstart : phys' dd = (phys dd).add t δ δc δu)
    (hu : 0 ≤ (phys dd).usedBytes + δ) (hcomp : 0 ≤ (phys dd).compressedBytes + δc)
    (hunc : 0 ≤ (phys dd).uncompressedBytes + δu)
    (hchild : ((phys' p).usedBreakdown .child : ℤ) = (phys p).usedBreakdown .child + δ)
    (hrsrv : ((phys' p).usedBreakdown .childRsrv : ℤ) = (phys p).usedBreakdown .childRsrv -
      (δ - parentDelta (phys dd) (phys dd).usedBytes δ))
    (hcp : ((phys' p).compressedBytes : ℤ) = (phys p).compressedBytes + δc)
    (hup : ((phys' p).uncompressedBytes : ℤ) = (phys p).uncompressedBytes + δu) :
    Balanced dirs cpar rpar phys' p := by
  have hsum : ∀ {par : ℕ → Option ℕ} (f : DirPhys → ℕ), par dd = some p →
      (∀ e ∈ dirs, par e = some p → e ≠ dd → f (phys e) = f (phys' e)) →
      childSum dirs par (fun e => f (phys' e)) p + f (phys dd) =
        childSum dirs par (fun e => f (phys e)) p + f ((phys dd).add t δ δc δu) := by
    intro par f hpar hf
    rw [← hstart]
    exact childSum_update (fun e => f (phys e)) (fun e => f (phys' e)) hdd hpar hf
  have h1 := hsum (·.usedBytes) hc fun e h1 h2 h3 => (hother e h1 (.inl h2) h3).1
  have h2 := hsum (fun d => d.reserved - d.usedBytes) hr fun e h1 h2 h3 => by
    obtain ⟨hu, -, -, hres⟩ := hother e h1 (.inr h2) h3
    simp only [hu, hres]
  have h3 := hsum (·.compressedBytes) hc fun e h1 h2 h3 => (hother e h1 (.inl h2) h3).2.1
  have h4 := hsum (·.uncompressedBytes) hc fun e h1 h2 h3 => (hother e h1 (.inl h2) h3).2.2.1
  have hb1 := h.child
  have hb2 := h.childRsrv
  have hb3 := h.compressed
  have hb4 := h.uncompressed
  simp only [DirPhys.add] at h1 h2 h3 h4
  unfold parentDelta at hrsrv
  constructor <;> omega

theorem parentDelta_bounds (d : DirPhys) {δ : ℤ} (h : 0 ≤ d.usedBytes + δ) :
    0 ≤ d.usedBytes + parentDelta d d.usedBytes δ ∧ parentDelta d d.usedBytes δ ≤ max δ 0 ∧
      δ - parentDelta d d.usedBytes δ ≤ (d.reserved - d.usedBytes : ℕ) := by
  unfold parentDelta
  omega

theorem Moved.up {st2 : State} {d : DirPhys} (hf : Forest st rank) (hdd : dd ∈ st.dirs)
    (hw : Way cpar rpar st dd) (hp : st.parent dd = some p) (hfit : Fits (st.phys dd) t δ δc δu)
    (h : Moved cpar rpar (st.set dd ((st.phys dd).add t δ δc δu)) st2 p .child
      (parentDelta (st.phys dd) (st.phys dd).usedBytes δ) δc δu)
    (hd : d = { st2.phys p with usedBreakdown := d.usedBreakdown })
    (hr : (d.usedBreakdown .childRsrv : ℤ) = (st2.phys p).usedBreakdown .childRsrv -
      (δ - parentDelta (st.phys dd) (st.phys dd).usedBytes δ))
    (hc : (d.usedBreakdown .child : ℤ) = (st2.phys p).usedBreakdown .child +
      (δ - parentDelta (st.phys dd) (st.phys dd).usedBytes δ))
    (htotal : total d.usedBreakdown = total (st2.phys p).usedBreakdown) :
    Moved cpar rpar st (st2.set p d) dd t δ δc δu := by
  have hdd_not : ¬st.Above p dd := hf.not_above_parent hdd hp
  have hpdd : p ≠ dd := by
    rintro rfl
    exact hdd_not .refl
  have habove := above_congr hfit.kept.parent
  -- the three states at `dd`, at `p` and elsewhere
  have hframe : ∀ e, e ≠ dd → ¬st.Above p e → (st2.set p d).phys e = st.phys e := by
    intro e he hne
    rw [set_phys_of_ne, h.frame e (habove ▸ hne), set_phys_of_ne _ _ he]
    rintro rfl
    exact hne .refl
  have hstart : (st2.set p d).phys dd = (st.phys dd).add t δ δc δu := by
    rw [set_phys_of_ne _ _ hpdd.symm, h.frame dd (habove ▸ hdd_not), set_phys_self]
  have hsame : ∀ e, SameSpace (st2.phys e) ((st2.set p d).phys e) := by
    intro e
    by_cases hep : e = p
    · subst hep
      rw [set_phys_self, hd]
      exact ⟨rfl, rfl, rfl, rfl⟩
    · exact .of_eq (set_phys_of_ne _ _ hep).symm
  have hparent : st2.phys p = (st.phys p).add .child
      (parentDelta (st.phys dd) (st.phys dd).usedBytes δ) δc δu := by
    rw [h.start, set_phys_of_ne _ _ hpdd]
  have hle : ∀ (f : DirPhys → ℕ) {x y : ℤ}, (∀ e, f (st2.phys e) = f ((st2.set p d).phys e)) →
      (f ((st.phys dd).add t δ δc δu) : ℤ) ≤ f (st.phys dd) + max x 0 → max y 0 ≤ max x 0 →
      (∀ e, (f (st2.phys e) : ℤ) ≤ f ((st.set dd ((st.phys dd).add t δ δc δu)).phys e) + max y 0) →
      ∀ e, (f ((st2.set p d).phys e) : ℤ) ≤ f (st.phys e) + max x 0 := by
    intro f x y h1 h2 h3 h4 e
    by_cases hed : e = dd
    · rwa [hed, hstart]
    · have h5 := h4 e
      rw [set_phys_of_ne _ _ hed] at h5
      rw [← h1 e]
      omega
  have hb := parentDelta_bounds (st.phys dd) hfit.used
  refine ⟨hfit.kept.trans (h.toKept.trans (.set ?_ ?_ ?_ fun hs => ?_)), hstart, fun e he => ?_,
    fun q hq hbal => ?_, ?_, ?_, ?_⟩
  · rw [hd]
  · rw [hd]
  · rw [hd]
  · rw [hd]
    exact ⟨hs.1.trans htotal.symm, hs.2⟩
  · refine hframe e ?_ fun hpe => he (.head hp hpe)
    rintro rfl
    exact he .refl
  · by_cases hqp : q = p
    · subst hqp
      have hcq := hw.cpar_eq dd .refl
      have hrq := hw.rpar_eq dd .refl
      have hcov := hbal.covers hdd (hcq.trans hp) (hrq.trans hp)
      refine hbal.restore hdd (hcq.trans hp) (hrq.trans hp) (fun e he hchild hne => ?_) hstart
        hfit.used hfit.compressed hfit.uncompressed ?_ ?_ ?_ ?_
      · -- a child of the parent is not above it
        refine .of_eq (hframe e hne fun hqe => ?_).symm
        have hup : st.Above dd e := .head hp hqe
        have hpe : st.parent e = some q := by
          rcases hchild with hchild | hchild
          · rw [← hw.cpar_eq e hup, hchild]
          · rw [← hw.rpar_eq e hup, hchild]
        exact hf.not_above_parent he hpe hqe
      · rw [set_phys_self, hc, hparent]
        simp only [DirPhys.add, update_self]
        omega
      · rw [set_phys_self, hr, hparent]
        simp [DirPhys.add]
      · rw [set_phys_self, hd, hparent]
        simp only [DirPhys.add]
        have := hfit.compressed
        omega
      · rw [set_phys_self, hd, hparent]
        simp only [DirPhys.add]
        have := hfit.uncompressed
        omega
    · have h1 := hbal.set_of_ne (d := (st.phys dd).add t δ δc δu) hq
        ((hw.cpar_eq dd .refl).trans hp ▸ ne_some_of_ne hqp)
        ((hw.rpar_eq dd .refl).trans hp ▸ ne_some_of_ne hqp)
      exact (h.balanced q hqp h1).of_eq (set_phys_of_ne _ _ hqp) (fun e _ _ => hsame e)
        fun e _ _ => hsame e
  · refine hle (·.usedBytes) (fun e => (hsame e).1) ?_ ?_ h.used_le
    · simp only [DirPhys.add]
      omega
    · omega
  · refine hle (·.compressedBytes) (fun e => (hsame e).2.1) ?_ le_rfl h.compressed_le
    simp only [DirPhys.add]
    omega
  · refine hle (·.uncompressedBytes) (fun e => (hsame e).2.2.1) ?_ le_rfl h.uncompressed_le
    simp only [DirPhys.add]
    omega

theorem diduseSpace_root {n : ℕ} {d : DirPhys} (h : diduseHere (st.phys dd) t δ δc δu = .ok d)
    (hp : d.ddParent = none) :
    dslDirDiduseSpace (n + 1) st dd t δ δc δu = .ok (st.set dd d) := by
  rw [dslDirDiduseSpace, h]
  dsimp only [bind, Except.bind]
  rw [hp]

/-- The result of an operation: a state with `P`, or a stop because `full`. No counter falls
below zero, and no recursion fails to end. -/
def Outcome (r : Except Fault State) (P : State → Prop) (full : Prop) : Prop :=
  (∃ st', r = .ok st' ∧ P st') ∨ (r = .error .above ∧ full)

theorem Outcome.imp {r : Except Fault State} {P Q : State → Prop} {F G : Prop}
    (h : Outcome r P F) (hPQ : ∀ st', P st' → Q st') (hFG : F → G) : Outcome r Q G := by
  rcases h with ⟨st', hok, hP⟩ | ⟨herr, hF⟩
  · exact .inl ⟨st', hok, hPQ st' hP⟩
  · exact .inr ⟨herr, hFG hF⟩

theorem Outcome.bind {r : Except Fault State} {f : State → Except Fault State}
    {P Q : State → Prop} {F G : Prop} (h : Outcome r P F) (hf : ∀ st', P st' → Outcome (f st') Q G)
    (hFG : F → G) : Outcome (r >>= f) Q G := by
  rcases h with ⟨st', rfl, hP⟩ | ⟨rfl, hF⟩
  · exact hf st' hP
  · exact .inr ⟨rfl, hFG hF⟩

theorem diduseSpace_spec (n : ℕ) (hf : Forest st rank) (hdd : dd ∈ st.dirs)
    (hn : (below st rank dd).card < n) (hw : Way cpar rpar st dd)
    (hb : 0 ≤ (st.phys dd).usedBreakdown t + δ) (hc : 0 ≤ (st.phys dd).compressedBytes + δc)
    (hu : 0 ≤ (st.phys dd).uncompressedBytes + δu) :
    Outcome (dslDirDiduseSpace n st dd t δ δc δu)
      (fun st' => Moved cpar rpar st st' dd t δ δc δu) (Full st dd δ δc δu) := by
  induction n generalizing st dd t δ with
  | zero => omega
  | succ n ih =>
    have hsdd := hw.summed dd .refl
    have hle := le_total (st.phys dd).usedBreakdown t
    have hsum := hsdd.1
    rcases diduseHere_spec (hf.flags dd hdd) hsdd hb hc hu with ⟨hok, hfit⟩ | ⟨herr, hfull⟩
    swap
    · refine .inr ⟨?_, dd, .refl, ?_⟩
      · rw [dslDirDiduseSpace, herr]
        rfl
      · omega
    cases hp : st.parent dd with
    | none =>
      refine .inl ⟨_, diduseSpace_root hok hp, .here hfit ?_ ?_⟩
      · rw [hw.cpar_eq dd .refl, hp]
      · rw [hw.rpar_eq dd .refl, hp]
    | some p =>
      rw [dslDirDiduseSpace, hok]
      dsimp only [bind, Except.bind]
      rw [show ((st.phys dd).add t δ δc δu).ddParent = some p from hp]
      dsimp only
      have hpd := hf.mem dd hdd p hp
      have hpdd : p ≠ dd := by
        rintro rfl
        exact hf.not_above_parent hdd hp .refl
      have hbal := hw.balanced p (.single hp) hpdd
      obtain ⟨hc1, hc2, hc3, hc4⟩ := hbal.covers hdd (by rw [hw.cpar_eq dd .refl, hp])
        (by rw [hw.rpar_eq dd .refl, hp])
      obtain ⟨hd1, hd2, hd3⟩ := parentDelta_bounds (st.phys dd) hfit.used
      have hphys : ∀ e, e ≠ dd → (st.set dd ((st.phys dd).add t δ δc δu)).phys e = st.phys e :=
        fun e he => set_phys_of_ne _ _ he
      have hbelow : (below (st.set dd ((st.phys dd).add t δ δc δu)) rank p).card < n := by
        have := hf.below_lt hdd hp
        exact this.trans_le (Nat.lt_succ_iff.1 hn)
      rcases @ih _ p .child (parentDelta (st.phys dd) (st.phys dd).usedBytes δ) (hf.kept hfit.kept)
        hpd hbelow (hw.parent hf hdd hp rfl) (by rw [hphys p hpdd]; omega)
        (by rw [hphys p hpdd]; omega) (by rw [hphys p hpdd]; omega) with
        ⟨st2, hok2, hm⟩ | ⟨herr, a, ha, hfull⟩
      · rw [hok2]
        have hst2 : st2.phys p = (st.phys p).add .child
            (parentDelta (st.phys dd) (st.phys dd).usedBytes δ) δc δu := by
          rw [hm.start, hphys p hpdd]
        obtain ⟨d, htr, h1, h2, h3, h4⟩ := transfer_spec st2 p
          (δ - parentDelta (st.phys dd) (st.phys dd).usedBytes δ)
          ((hf.kept (hfit.kept.trans hm.toKept)).flags p (by rw [hm.dirs]; exact hpd))
          (hm.summed p (hfit.kept.summed p (hw.summed p (.single hp))))
          (by rw [hst2]; simp [DirPhys.add]; omega)
          (by rw [hst2]; simp only [DirPhys.add, update_self]; omega)
        exact .inl ⟨_, htr, .up hf hdd hw hp hfit hm h1 h2 h3 h4⟩
      · rw [herr]
        rw [above_congr hfit.kept.parent] at ha
        refine .inr ⟨rfl, a, .head hp ha, ?_⟩
        have hadd : a ≠ dd := by
          rintro rfl
          exact hf.not_above_parent hdd hp ha
        rw [hphys a hadd] at hfull
        omega

end Osol.Zfs.DslDir
