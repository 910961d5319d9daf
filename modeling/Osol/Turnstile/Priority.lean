import Osol.Turnstile.Run

/-!
# Inherited priorities

The priority that a thread runs at is the highest one of its own and of the turnstiles that it
inherits from, and the sleep queues are sorted by it. The functions keep that when a turnstile only
ever has one thread to inherit from it.
-/

namespace Osol.Turnstile

open Function List

variable {T O K B : Type} {s s' : Sys T O K B} {t : T} {k : K} {i : T}

def inherited (s : Sys T O K B) (t : T) : ℕ := ((s.thread t).prioinv.map fun k => (s.ts k).epri).foldr max 0

theorem inherited_le {p : ℕ} : inherited s t ≤ p ↔ ∀ k ∈ (s.thread t).prioinv, (s.ts k).epri ≤ p := by
  unfold inherited
  induction (s.thread t).prioinv with
  | nil => simp
  | cons k l ih =>
    rw [map_cons, foldr_cons, Nat.max_le, ih]
    simp

theorem inherited_congr (h1 : (s'.thread t).prioinv = (s.thread t).prioinv)
    (h2 : ∀ k ∈ (s.thread t).prioinv, (s'.ts k).epri = (s.ts k).epri) : inherited s' t = inherited s t := by
  unfold inherited
  rw [h1, map_congr_left h2]

theorem le_inherited (h : k ∈ (s.thread t).prioinv) : (s.ts k).epri ≤ inherited s t :=
  inherited_le.1 le_rfl k h

/-- Priorities and queues agree. -/
structure Prio (s : Sys T O K B) : Prop where
  sorted : ∀ k q, Sorted s.cmpPrio ((s.ts k).sleepq q)
  disp : ∀ t, s.dispPrio t = max (s.thread t).pri (inherited s t)

theorem dispPrio_eq_max (s : Sys T O K B) (t : T) :
    s.dispPrio t = max (s.thread t).pri (s.thread t).epri := by
  unfold Sys.dispPrio Thread.dispPrio
  split <;> omega

variable {q : Qnum}

theorem Prio.le_first (hp : Prio s) {u : T} {l : List T} (h : (s.ts k).sleepq q = t :: l)
    (hu : u ∈ (s.ts k).sleepq q) : s.dispPrio u ≤ s.dispPrio t := by
  have hs := hp.sorted k q
  rw [h] at hs hu
  rcases mem_cons.1 hu with rfl | hu
  · exact le_rfl
  · have hle := (pairwise_cons.1 hs).1 u hu
    unfold Sys.cmpPrio Thread.cmpPrio at hle
    have h1 := Bool.toNat_le (s.thread t).writer
    unfold Sys.dispPrio
    omega

theorem Prio.le_firstPri (hp : Prio s) {u : T} (hu : u ∈ (s.ts k).sleepq q) :
    s.dispPrio u ≤ s.firstPri k q := by
  unfold Sys.firstPri
  split
  · rename_i h
    rw [h] at hu
    simp at hu
  · rename_i t l h
    exact hp.le_first h hu

/-! ## Changes of a priority -/

variable {pri : ℕ}

theorem Repri.inherited [DecidableEq T] {epri : ℕ} (h : Repri s s' i pri epri) (t : T) :
    Turnstile.inherited s' t = Turnstile.inherited s t := by
  refine inherited_congr ?_ fun k _ => by rw [h.ts k]
  by_cases ht : t = i
  · rw [ht, h.self]
  · rw [h.other t ht]

theorem Repri.dispPrio_self {epri : ℕ} (h : Repri s s' i pri epri) : s'.dispPrio i = max pri epri := by
  rw [dispPrio_eq_max, h.self]

theorem Repri.dispPrio_other {epri : ℕ} (h : Repri s s' i pri epri) (ht : t ≠ i) :
    s'.dispPrio t = s.dispPrio t := by
  unfold Sys.dispPrio
  rw [h.other t ht]

/-- The scheduling classes leave the priorities as they are. -/
structure Env.Fixed (env : Env T O B) : Prop where
  sleep : ∀ t pri, env.clSleep t pri = pri
  wakeup : ∀ t pri, env.clWakeup t pri = pri

/-- No priority changes, and who inherits does not, either. -/
structure SamePrio (s s' : Sys T O K B) : Prop where
  pri : ∀ u, (s'.thread u).pri = (s.thread u).pri
  disp : ∀ u, s'.dispPrio u = s.dispPrio u
  prioinv : ∀ u, (s'.thread u).prioinv = (s.thread u).prioinv
  ts : ∀ j, (s'.ts j).inheritor = (s.ts j).inheritor ∧ (s'.ts j).epri = (s.ts j).epri

theorem SamePrio.prio (h : SamePrio s s') (hp : Prio s)
    (hsorted : ∀ k q, Sorted s'.cmpPrio ((s'.ts k).sleepq q)) :
    Prio s' := by
  refine ⟨hsorted, fun u => ?_⟩
  rw [h.disp, h.pri, inherited_congr (h.prioinv u) fun j _ => (h.ts j).2]
  exact hp.disp u

theorem sleepOrder_fixed [DecidableEq T] {env : Env T O B} (henv : env.Fixed) (s : Sys T O K B)
    (t : T) : sleepOrder env s t = s.cmpPrio :=
  cmpPrio_congr fun u => by
    by_cases hu : u = t
    · simp [hu, henv.sleep]
    · simp [hu]

theorem newEpri_le [DecidableEq K] {l : List K} {epri p : ℕ} :
    s.newEpri k l epri ≤ p ↔ epri ≤ p ∧ ∀ j ∈ l, j ≠ k → (s.ts j).epri ≤ p := by
  induction l generalizing epri with
  | nil => simp [Sys.newEpri]
  | cons j l ih =>
    rw [Sys.newEpri, ih, forall_mem_cons]
    split
    · rename_i hj
      simp [hj]
    · rw [Nat.max_le]
      tauto

theorem inherited_piTsdelete [DecidableEq T] [DecidableEq K] (s : Sys T O K B) (k : K) (i : T) :
    inherited (s.piTsdelete k i).1 i = (s.piTsdelete k i).2 := by
  refine eq_of_forall_ge_iff fun p => ?_
  rw [inherited_le, Sys.piTsdelete, newEpri_le]
  simp [mem_unlinkTs]

section Inherit

variable [DecidableEq T] [DecidableEq K] {epri : ℕ}

theorem setInheritor_ts (epri : ℕ) (hinh : (s.ts k).inheritor = none ∨ (s.ts k).inheritor = some i) :
    ((s.setInheritor k i epri).ts k).inheritor = some i ∧ epri ≤ ((s.setInheritor k i epri).ts k).epri ∧
      ((s.ts k).inheritor = some i → ((s.setInheritor k i epri).ts k).epri = max (s.ts k).epri epri ∧
          (s.setInheritor k i epri).thread = s.thread) ∧
      ∀ j, j ≠ k → (s.setInheritor k i epri).ts j = s.ts j := by
  unfold Sys.setInheritor
  split
  · rename_i h
    refine ⟨by simp, by simp, fun h' => ?_, fun j hj => by simp [hj]⟩
    rw [h] at h'
    simp at h'
  rename_i u h
  have hu : (s.ts k).inheritor = some i := hinh.resolve_left (by simp [h])
  split
  · refine ⟨by simpa using hu, by simp, fun _ => ⟨?_, rfl⟩, fun j hj => by simp [hj]⟩
    simp only [Sys.setTs_ts, update_self]
    omega
  · exact ⟨hu, by omega, fun _ => ⟨by omega, rfl⟩, fun _ _ => rfl⟩

theorem setInheritor_sleepq (s : Sys T O K B) (k : K) (i : T) (epri : ℕ) (j : K) :
    ((s.setInheritor k i epri).ts j).sleepq = (s.ts j).sleepq := by
  unfold Sys.setInheritor
  split
  · by_cases hj : j = k <;> simp [hj]
  · split
    · by_cases hj : j = k <;> simp [hj]
    · rfl

theorem setInheritor_cmpPrio (s : Sys T O K B) (k : K) (i : T) (epri : ℕ) :
    (s.setInheritor k i epri).cmpPrio = s.cmpPrio := by
  refine cmpPrio_congr fun u => ?_
  unfold Sys.setInheritor
  split
  · by_cases hu : u = i <;> simp [hu]
  · split <;> exact ⟨rfl, rfl, rfl⟩

section

variable (hi : Inh s) (hinh : (s.ts k).inheritor = none ∨ (s.ts k).inheritor = some i)
include hi hinh

theorem Inh.inherited_self : inherited (s.setInheritor k i epri) i = max (inherited s i) epri := by
  obtain ⟨-, hle, hmono, hother⟩ := setInheritor_ts epri hinh
  rcases hinh with hnone | hsome
  · have hlist : ((s.setInheritor k i epri).thread i).prioinv = k :: (s.thread i).prioinv := by
      unfold Sys.setInheritor
      rw [hnone]
      simp
    have hts : ((s.setInheritor k i epri).ts k).epri = epri := by
      unfold Sys.setInheritor
      rw [hnone]
      simp
    have hnot : k ∉ (s.thread i).prioinv := fun h => by
      rw [hi.mem, hnone] at h
      simp at h
    refine eq_of_forall_ge_iff fun p => ?_
    rw [inherited_le, hlist, Nat.max_le, inherited_le, forall_mem_cons, hts, and_comm]
    refine and_congr_left fun _ => forall₂_congr fun j hj => ?_
    rw [hother j fun e => hnot (e ▸ hj)]
  · obtain ⟨hts, hth⟩ := hmono hsome
    have hmem : k ∈ (s.thread i).prioinv := (hi.mem i k).2 hsome
    refine eq_of_forall_ge_iff fun p => ?_
    rw [inherited_le, hth, Nat.max_le, inherited_le]
    constructor
    · intro h
      refine ⟨fun j hj => ?_, hle.trans (h k hmem)⟩
      by_cases hjk : j = k
      · have := h k hmem
        rw [hjk]
        omega
      · rw [← hother j hjk]
        exact h j hj
    · rintro ⟨h1, h2⟩ j hj
      by_cases hjk : j = k
      · rw [hjk, hts]
        exact Nat.max_le.2 ⟨h1 k hmem, h2⟩
      · rw [hother j hjk]
        exact h1 j hj

theorem Inh.inherited_other (ht : t ≠ i) : inherited (s.setInheritor k i epri) t = inherited s t := by
  obtain ⟨-, -, -, hother⟩ := setInheritor_ts epri hinh
  refine inherited_congr ?_ fun j hj => ?_
  · unfold Sys.setInheritor
    split
    · simp [ht]
    · split <;> rfl
  have hjk : j ≠ k := by
    rintro rfl
    have hmem := (hi.mem t j).1 hj
    rcases hinh with h | h
    · rw [h] at hmem
      simp at hmem
    · rw [h] at hmem
      exact ht (Option.some.inj hmem).symm
  rw [hother j hjk]

end

end Inherit

/-- A thread inherits at least this priority from a turnstile. -/
structure Raised (s s' : Sys T O K B) (k : K) (i : T) (epri : ℕ) : Prop where
  prio : Prio s'
  pri : ∀ u, (s'.thread u).pri = (s.thread u).pri
  self : s'.dispPrio i = max (s.dispPrio i) epri
  other : ∀ u, u ≠ i → s'.dispPrio u = s.dispPrio u
  ts : ∀ j, j ≠ k → (s'.ts j).inheritor = (s.ts j).inheritor ∧ (s'.ts j).epri = (s.ts j).epri
  willed : epri ≤ (s.thread i).pri ∨ (s'.ts k).inheritor = some i ∧ epri ≤ (s'.ts k).epri
  inheritor : (s'.ts k).inheritor = none ∨ (s'.ts k).inheritor = some i
  mono : (s.ts k).inheritor = some i → (s'.ts k).inheritor = some i ∧ (s.ts k).epri ≤ (s'.ts k).epri

variable [DecidableEq T] [DecidableEq O] [DecidableEq K] [DecidableEq B] {env : Env T O B} {things : List K}

theorem Good.raised (h : Good env things s) (hp : Prio s)
    (hinh : (s.ts k).inheritor = none ∨ (s.ts k).inheritor = some i) (epri : ℕ) :
    Raised s (s.piInherit k i epri) k i epri := by
  have hle : (s.thread i).pri ≤ s.dispPrio i := by
    rw [dispPrio_eq_max]
    exact Nat.le_max_left _ _
  obtain ⟨hself, hge, hmono, hother⟩ := setInheritor_ts epri hinh
  have hpri := setInheritor_pri s k i epri
  have hdisp : ∀ u, (s.setInheritor k i epri).dispPrio u = s.dispPrio u := fun u => by
    rw [dispPrio_eq_max, dispPrio_eq_max, (hpri u).1, (hpri u).2]
  have hsorted : ∀ j q, Sorted (s.setInheritor k i epri).cmpPrio
    (((s.setInheritor k i epri).ts j).sleepq q) := fun j q => by
    rw [setInheritor_cmpPrio, setInheritor_sleepq]
    exact hp.sorted j q
  have hm : (s.ts k).inheritor = some i →
      ((s.setInheritor k i epri).ts k).inheritor = some i ∧
      (s.ts k).epri ≤ ((s.setInheritor k i epri).ts k).epri :=
    fun h' => ⟨hself, by rw [(hmono h').1]; exact Nat.le_max_left _ _⟩
  rcases h.own.piInherit_cases k i epri with ⟨hle', heq⟩ | ⟨hlt, hd, heq⟩ | ⟨hlt, hd, hr⟩
  · rw [heq]
    exact ⟨hp, fun _ => rfl, by omega, fun _ _ => rfl, fun _ _ => ⟨rfl, rfl⟩, .inl hle', hinh,
      fun h' => ⟨h', le_rfl⟩⟩
  · rw [heq]
    refine ⟨⟨hsorted, fun u => ?_⟩, fun u => (hpri u).1, ?_, fun u _ => hdisp u, fun j hj => ?_,
      .inr ⟨hself, hge⟩,
      .inr hself, hm⟩
    · rw [hdisp, (hpri u).1]
      by_cases hu : u = i
      · subst hu
        rw [h.inh.inherited_self hinh, ← Nat.max_assoc, ← hp.disp]
        omega
      · rw [h.inh.inherited_other hinh hu]
        exact hp.disp u
    · rw [hdisp]
      omega
    · rw [hother j hj]
      exact ⟨rfl, rfl⟩
  · refine ⟨⟨hr.sorted hsorted, fun u => ?_⟩, fun u => ?_, ?_, fun u hu => ?_, fun j hj => ?_, ?_, ?_, ?_⟩
    · rw [hr.inherited]
      by_cases hu : u = i
      · subst hu
        rw [hr.dispPrio_self, hr.self, h.inh.inherited_self hinh, ← Nat.max_assoc, ← hp.disp]
        omega
      · rw [hr.dispPrio_other hu, hr.other u hu, hdisp, (hpri u).1, h.inh.inherited_other hinh hu]
        exact hp.disp u
    · by_cases hu : u = i
      · rw [hu, hr.self]
      · rw [hr.other u hu, (hpri u).1]
    · rw [hr.dispPrio_self]
      omega
    · rw [hr.dispPrio_other hu, hdisp]
    · rw [hr.ts j, hother j hj]
      exact ⟨rfl, rfl⟩
    · rw [hr.ts k]
      exact .inr ⟨hself, hge⟩
    · rw [hr.ts k]
      exact .inr hself
    · rwa [hr.ts k]

/-! ## Priorities that are waived -/

/-- A turnstile from which nobody inherits any more. -/
structure Waived (s s' : Sys T O K B) (k : K) (i : T) : Prop where
  prio : Prio s'
  pri : ∀ u, (s'.thread u).pri = (s.thread u).pri
  other : ∀ u, u ≠ i → s'.dispPrio u = s.dispPrio u
  self : (s'.ts k).inheritor = none
  ts : ∀ j, j ≠ k → (s'.ts j).inheritor = (s.ts j).inheritor ∧ (s'.ts j).epri = (s.ts j).epri

theorem Good.waived (h : Good env things s) (hp : Prio s) (k : K) (i : T) :
    Waived s (s.piWaive k i) k i := by
  obtain ⟨s2, epri, hr, heq, hepri⟩ := h.own.waive_repri k i
  have hth : ∀ u, u ≠ i → (s.piTsdelete k i).1.thread u = s.thread u := fun u hu => by
    simp [Sys.piTsdelete, hu]
  have hcmp : (s.piTsdelete k i).1.cmpPrio = s.cmpPrio := cmpPrio_congr fun u => by
    by_cases hu : u = i <;> simp [Sys.piTsdelete, hu]
  have hsorted := hr.sorted fun j q => by
    rw [hcmp]
    exact hp.sorted j q
  have hinh : ∀ u, inherited (s2.setTs k fun ts => { ts with inheritor := none }) u =
    inherited s2 u := fun u => inherited_congr rfl fun j _ => by by_cases hj : j = k <;> simp [hj]
  have hinh' : ∀ u, u ≠ i → inherited (s.piTsdelete k i).1 u = inherited s u := fun u hu =>
    inherited_congr (by rw [hth u hu]) fun _ _ => rfl
  rw [heq]
  refine ⟨⟨fun j q => ?_, fun u => ?_⟩, fun u => ?_, fun u hu => ?_, by simp, fun j hj => ?_⟩
  · have hsq : ((s2.setTs k fun ts => { ts with inheritor := none }).ts j).sleepq = (s2.ts j).sleepq := by
      by_cases hj : j = k <;> simp [hj]
    rw [hsq]
    exact hsorted j q
  · change s2.dispPrio u = max (s2.thread u).pri _
    rw [hinh, hr.inherited]
    by_cases hu : u = i
    · subst hu
      rw [hr.dispPrio_self, hr.self, inherited_piTsdelete]
      rcases hepri with he | ⟨he, hd⟩
      · rw [he]
      · rw [he, hd, dispPrio_eq_max]
        dsimp only
        omega
    · rw [hr.dispPrio_other hu, hr.other u hu, hth u hu, hinh' u hu, ← hp.disp]
      unfold Sys.dispPrio
      rw [hth u hu]
  · change (s2.thread u).pri = _
    by_cases hu : u = i
    · rw [hu, hr.self]
    · rw [hr.other u hu, hth u hu]
  · change s2.dispPrio u = _
    rw [hr.dispPrio_other hu]
    unfold Sys.dispPrio
    rw [hth u hu]
  · rw [Sys.setTs_ts, update_of_ne hj, hr.ts j]
    exact ⟨rfl, rfl⟩

/-! ## Threads that block and wake -/

theorem enqueue_cases (henv : env.Fixed) (s : Sys T O K B) (t : T) (o : O) (q : Qnum) :
    (∀ u, ∃ ts wchan sq, (enqueue env s t o q).thread u =
      { s.thread u with ts := ts, wchan := wchan, sleepq := sq }) ∧
    (∀ j, ((enqueue env s t o q).ts j).inheritor = (s.ts j).inheritor ∧
      ((enqueue env s t o q).ts j).epri = (s.ts j).epri) ∧
    ∀ j r, ((enqueue env s t o q).ts j).sleepq r = (s.ts j).sleepq r ∨
      ((enqueue env s t o q).ts j).sleepq r = sleepqInsert s.cmpPrio t ((s.ts j).sleepq r) := by
  obtain ⟨k, sobj, free, hts, hth, -⟩ := enqueue_change env s t o q
  refine ⟨fun u => ?_, fun j => ?_, fun j r => ?_⟩
  · by_cases hu : u = t
    · exact ⟨_, _, _, by rw [hth, hu, update_self, sleeper, henv.sleep]⟩
    · exact ⟨_, _, _, by rw [hth, update_of_ne hu]⟩
  · by_cases hj : j = k <;> simp [hts, hj]
  · by_cases hj : j = k <;> by_cases hr : r = q <;> simp [hts, hj, hr, sleepOrder_fixed henv]

theorem enqueue_samePrio (henv : env.Fixed) (s : Sys T O K B) (t : T) (o : O) (q : Qnum) :
    SamePrio s (enqueue env s t o q) := by
  obtain ⟨h1, h2, -⟩ := enqueue_cases henv s t o q
  refine ⟨fun u => ?_, fun u => ?_, fun u => ?_, h2⟩ <;> obtain ⟨ts, wchan, sq, h⟩ := h1 u
  · rw [h]
  · rw [dispPrio_eq_max, dispPrio_eq_max, h]
  · rw [h]

theorem Prio.enqueue (hp : Prio s) (henv : env.Fixed) (t : T) (o : O) (q : Qnum) :
    Prio (enqueue env s t o q) := by
  obtain ⟨h1, -, h3⟩ := enqueue_cases henv s t o q
  have hcmp : (Turnstile.enqueue env s t o q).cmpPrio = s.cmpPrio := cmpPrio_congr fun u => by
    obtain ⟨ts, wchan, sq, h⟩ := h1 u
    rw [h]
    exact ⟨rfl, rfl, rfl⟩
  refine (enqueue_samePrio henv s t o q).prio hp fun j r => ?_
  rw [hcmp]
  rcases h3 j r with h | h
  · rw [h]
    exact hp.sorted j r
  · rw [h]
    exact sorted_sleepqInsert (hp.sorted j r)

section

variable (ho : Own env things s) (hsq : (s.thread t).sleepq = some (k, q))
  (hinh : (s.ts k).inheritor = none)
include ho hsq hinh

theorem Own.dequeue_cases :
    (∃ ts, (s.dequeue env t).thread t = { s.thread t with ts := ts, wchan := none, sleepq := none }) ∧
    (∀ u, u ≠ t → (s.dequeue env t).thread u = s.thread u) ∧
    (∀ j, ((s.dequeue env t).ts j).inheritor = (s.ts j).inheritor ∧
      ((s.dequeue env t).ts j).epri = (s.ts j).epri ∧
      ((s.dequeue env t).ts j).sobj = (s.ts j).sobj) ∧
    ∀ j, (s.dequeue env t).Active j → s.Active j := by
  obtain ⟨hk, ⟨b, hb⟩, -⟩ := ho.asleep t k q hsq
  obtain ⟨o, hobj, -⟩ := ho.sobj b k hb
  cases hfree : (s.ts k).free with
  | cons c l =>
    obtain ⟨hts, hth, hch⟩ := dequeue_free env hk hsq hfree
    refine ⟨⟨c, by rw [hth, update_self]⟩, fun u hu => by rw [hth, update_of_ne hu], fun j => ?_,
      fun j => ?_⟩
    · by_cases hj : j = k <;> simp [hts, hj, leftTs]
    · unfold Sys.Active
      rw [hch]
      exact id
  | nil =>
    obtain ⟨hts, hth, hch⟩ := dequeue_last env hk hsq hfree hobj
    rw [hinh] at hth
    refine ⟨⟨(s.thread t).ts, by rw [hth t]; simp⟩, fun u hu => by rw [hth u]; simp [hu],
      fun j => ?_, fun j => ?_⟩
    · by_cases hj : j = k <;> simp [hts, hj, leftTs, hinh]
    rintro ⟨b, hb⟩
    refine ⟨b, ?_⟩
    rw [hch, update_apply] at hb
    split_ifs at hb with h
    · exact h ▸ mem_of_mem_erase hb
    · exact hb

theorem Own.dequeue_samePrio : SamePrio s (s.dequeue env t) := by
  obtain ⟨⟨ts, hself⟩, hother, hts, -⟩ := ho.dequeue_cases hsq hinh
  have hth : ∀ u, ((s.dequeue env t).thread u).pri = (s.thread u).pri ∧
      ((s.dequeue env t).thread u).epri = (s.thread u).epri ∧
      ((s.dequeue env t).thread u).prioinv = (s.thread u).prioinv := fun u => by
    by_cases hu : u = t
    · rw [hu, hself]
      exact ⟨rfl, rfl, rfl⟩
    · rw [hother u hu]
      exact ⟨rfl, rfl, rfl⟩
  refine ⟨fun u => (hth u).1, fun u => ?_, fun u => (hth u).2.2, fun j => ⟨(hts j).1, (hts j).2.1⟩⟩
  rw [dispPrio_eq_max, dispPrio_eq_max, (hth u).1, (hth u).2.1]

end

theorem Prio.dequeue (hp : Prio s) (ho : Own env things s) (hsq : (s.thread t).sleepq = some (k, q))
    (hinh : (s.ts k).inheritor = none) : Prio (s.dequeue env t) := by
  obtain ⟨⟨ts, hself⟩, hother, -⟩ := ho.dequeue_cases hsq hinh
  have hcmp : (s.dequeue env t).cmpPrio = s.cmpPrio := cmpPrio_congr fun u => by
    by_cases hu : u = t
    · rw [hu, hself]
      exact ⟨rfl, rfl, rfl⟩
    · rw [hother u hu]
      exact ⟨rfl, rfl, rfl⟩
  refine (ho.dequeue_samePrio hsq hinh).prio hp fun j r => ?_
  rw [hcmp, ho.dequeue_sleepq hsq]
  exact (hp.sorted j r).sublist erase_sublist

omit [DecidableEq O] [DecidableEq K] [DecidableEq B] in
theorem setThread_clWakeup (henv : env.Fixed) (s : Sys T O K B) (t : T) :
    (s.setThread t fun th => { th with pri := env.clWakeup t th.pri }) = s := by
  unfold Sys.setThread
  simp only [henv.wakeup]
  rw [update_eq_self]

end Osol.Turnstile
