import Osol.Turnstile.Own

/-!
# Who inherits from which turnstile

`turnstile_pi_inherit` puts a turnstile on the list of the thread that inherits from it, and
`turnstile_pi_waive` and the wakeup of the last waiter take it off again.
-/

namespace Osol.Turnstile

open List Function

variable {T O K B : Type} {s s' : Sys T O K B} {t : T} {k : K}

/-! ## Lists of turnstiles -/

theorem Repri.inh [DecidableEq T] {pri epri : ℕ} (h : Repri s s' t pri epri) (hi : Inh s) : Inh s' := by
  have hprio : ∀ u, (s'.thread u).prioinv = (s.thread u).prioinv := fun u => by
    by_cases hu : u = t
    · rw [hu, h.self]
    · rw [h.other u hu]
  have hinh : ∀ k, (s'.ts k).inheritor = (s.ts k).inheritor := fun k => by rw [h.ts k]
  exact hi.congr hprio hinh fun k => (h.frame.active k).2

theorem Inh.remove [DecidableEq K] (hi : Inh s)
    (hprio : ∀ u j, j ∈ (s'.thread u).prioinv ↔ j ∈ (s.thread u).prioinv ∧ j ≠ k)
    (hnodup : ∀ u, (s'.thread u).prioinv.Nodup) (hself : (s'.ts k).inheritor = none)
    (hother : ∀ j, j ≠ k → (s'.ts j).inheritor = (s.ts j).inheritor) (hactive : ∀ j, j ≠ k →
      s.Active j → s'.Active j) :
    Inh s' := by
  refine ⟨fun u j => ?_, hnodup, fun j u hj => ?_⟩
  · rw [hprio, hi.mem]
    by_cases hjk : j = k
    · subst hjk
      simp [hself]
    · simp [hjk, hother j hjk]
  · by_cases hjk : j = k
    · rw [hjk, hself] at hj
      simp at hj
    · rw [hother j hjk] at hj
      exact hactive j hjk (hi.active j u hj)

section Lists

variable [DecidableEq T] [DecidableEq K]

theorem mem_unlinkTs {j : K} {l : List K} : j ∈ Sys.unlinkTs k l ↔ j ∈ l ∧ j ≠ k := by
  induction l with
  | nil => simp [Sys.unlinkTs]
  | cons k' l ih =>
    unfold Sys.unlinkTs
    split
    · rename_i h
      rw [ih, mem_cons, h]
      tauto
    rename_i h
    rw [mem_cons, ih, mem_cons]
    constructor
    · rintro (rfl | ⟨h1, h2⟩)
      · exact ⟨.inl rfl, h⟩
      · exact ⟨.inr h1, h2⟩
    · rintro ⟨rfl | h1, h2⟩
      · exact .inl rfl
      · exact .inr ⟨h1, h2⟩

theorem unlinkTs_sublist (k : K) (l : List K) : (Sys.unlinkTs k l).Sublist l := by
  induction l with
  | nil => exact List.Sublist.refl _
  | cons k' l ih =>
    unfold Sys.unlinkTs
    split
    · exact ih.cons k'
    · exact ih.cons_cons k'

theorem setInheritor_frame (s : Sys T O K B) (k : K) (i : T) (epri : ℕ) :
    Frame s (s.setInheritor k i epri) := by
  unfold Sys.setInheritor
  split
  · exact (Frame.setTs rfl rfl rfl rfl).trans (Frame.setThread rfl rfl rfl)
  · split
    · exact Frame.setTs rfl rfl rfl rfl
    · exact Frame.refl s

theorem setInheritor_pri (s : Sys T O K B) (k : K) (i : T) (epri : ℕ) (u : T) :
    ((s.setInheritor k i epri).thread u).pri = (s.thread u).pri ∧
      ((s.setInheritor k i epri).thread u).epri = (s.thread u).epri := by
  unfold Sys.setInheritor
  split
  · by_cases hu : u = i <;> simp [hu]
  · split <;> exact ⟨rfl, rfl⟩

theorem Inh.setInheritor (hi : Inh s) (hk : s.Active k) (i : T) (epri : ℕ) :
    Inh (s.setInheritor k i epri) := by
  unfold Sys.setInheritor
  split
  · rename_i hnone
    refine ⟨fun u j => ?_, fun u => ?_, fun j u hj => ?_⟩
    · by_cases hu : u = i <;> by_cases hj : j = k <;> simp [hu, hj, hi.mem, hnone, eq_comm (a := i)]
    · by_cases hu : u = i
      · have hnot : k ∉ (s.thread i).prioinv := fun h => by
          rw [hi.mem, hnone] at h
          simp at h
        simpa [hu, hnot] using hi.nodup i
      · simpa [hu] using hi.nodup u
    · by_cases hjk : j = k
      · subst hjk
        exact hk
      · exact hi.active j u (by simpa [hjk] using hj)
  · split
    · refine ⟨fun u j => ?_, hi.nodup, fun j u hj => ?_⟩
      · by_cases hj : j = k <;> simp [hj, hi.mem]
      · by_cases hjk : j = k
        · subst hjk
          exact hk
        · exact hi.active j u (by simpa [hjk] using hj)
    · exact hi

theorem Inh.mem_piTsdelete (hi : Inh s) {i : T} (h : (s.ts k).inheritor = some i) (u : T) (j : K) :
    j ∈ ((s.piTsdelete k i).1.thread u).prioinv ↔ j ∈ (s.thread u).prioinv ∧ j ≠ k := by
  unfold Sys.piTsdelete
  by_cases hu : u = i
  · simp [hu, mem_unlinkTs]
  · have hnot : k ∉ (s.thread u).prioinv := fun hk => by
      rw [hi.mem, h] at hk
      exact hu (Option.some.inj hk).symm
    simp only [Sys.setThread_thread, update_of_ne hu]
    exact ⟨fun hj => ⟨hj, fun e => hnot (e ▸ hj)⟩, fun hj => hj.1⟩

theorem Inh.nodup_piTsdelete (hi : Inh s) (i u : T) : ((s.piTsdelete k i).1.thread u).prioinv.Nodup := by
  unfold Sys.piTsdelete
  by_cases hu : u = i
  · simpa [hu] using (hi.nodup i).sublist (unlinkTs_sublist k _)
  · simpa [hu] using hi.nodup u

theorem piTsdelete_frame (s : Sys T O K B) (k : K) (i : T) : Frame s (s.piTsdelete k i).1 :=
  Frame.setThread (g := fun th => { th with prioinv := Sys.unlinkTs k th.prioinv }) rfl rfl rfl

end Lists

/-! ## The functions -/

variable [DecidableEq T] [DecidableEq O] [DecidableEq K] [DecidableEq B] {env : Env T O B} {things : List K}

section

variable (ho : Own env things s)
include ho

/-- What `turnstile_pi_inherit` does: nothing, or it says that the thread inherits and raises its
priority. -/
theorem Own.piInherit_cases (k : K) (i : T) (epri : ℕ) :
    epri ≤ (s.thread i).pri ∧ s.piInherit k i epri = s ∨
    (s.thread i).pri < epri ∧ epri ≤ s.dispPrio i ∧ s.piInherit k i epri = s.setInheritor k i epri ∨
    (s.thread i).pri < epri ∧ s.dispPrio i < epri ∧
      Repri (s.setInheritor k i epri) (s.piInherit k i epri) i (s.thread i).pri epri := by
  have hdisp : (s.setInheritor k i epri).dispPrio i = s.dispPrio i := by
    obtain ⟨h1, h2⟩ := setInheritor_pri s k i epri i
    simp only [Sys.dispPrio, Thread.dispPrio, h1, h2]
  unfold Sys.piInherit
  split
  · rename_i hle
    exact .inl ⟨hle, rfl⟩
  rename_i hlt
  dsimp only
  rw [hdisp]
  split
  · rename_i hd
    refine .inr (.inr ⟨Nat.lt_of_not_le hlt, hd, ?_⟩)
    have h := ((setInheritor_frame s k i epri).own ho).threadChangeEpri i epri
    rwa [(setInheritor_pri s k i epri i).1] at h
  · rename_i hd
    exact .inr (.inl ⟨Nat.lt_of_not_le hlt, Nat.le_of_not_lt hd, rfl⟩)

theorem Own.piInherit_frame (k : K) (i : T) (epri : ℕ) : Frame s (s.piInherit k i epri) := by
  rcases ho.piInherit_cases k i epri with ⟨-, h⟩ | ⟨-, -, h⟩ | ⟨-, -, h⟩
  · rw [h]
    exact Frame.refl s
  · rw [h]
    exact setInheritor_frame s k i epri
  · exact (setInheritor_frame s k i epri).trans h.frame

theorem Own.piInherit_inh (hi : Inh s) (hk : s.Active k) (i : T) (epri : ℕ) :
    Inh (s.piInherit k i epri) := by
  rcases ho.piInherit_cases k i epri with ⟨-, h⟩ | ⟨-, -, h⟩ | ⟨-, -, h⟩
  · rwa [h]
  · rw [h]
    exact hi.setInheritor hk i epri
  · exact h.inh (hi.setInheritor hk i epri)

theorem Own.waive_repri (k : K) (i : T) : ∃ s2 epri, Repri (s.piTsdelete k i).1 s2 i (s.thread i).pri epri ∧
      s.piWaive k i = s2.setTs k (fun ts => { ts with inheritor := none }) ∧
      (epri = (s.piTsdelete k i).2 ∨ epri = (s.thread i).epri ∧ (s.piTsdelete k i).2 = s.dispPrio i) := by
  have hth : (s.piTsdelete k i).1.thread i =
    { s.thread i with prioinv := Sys.unlinkTs k (s.thread i).prioinv } := by
    simp [Sys.piTsdelete]
  have hdisp : (s.piTsdelete k i).1.dispPrio i = s.dispPrio i := by
    rw [Sys.dispPrio, hth]
    rfl
  unfold Sys.piWaive
  dsimp only
  rw [hdisp]
  by_cases h : (s.piTsdelete k i).2 = s.dispPrio i
  · rw [if_neg (not_not.2 h)]
    refine ⟨_, (s.thread i).epri,
      ⟨rfl, fun _ => rfl, fun _ _ => .refl _, ?_, fun _ _ => rfl, fun h => h⟩, rfl, .inr ⟨rfl, h⟩⟩
    rw [hth]
  · rw [if_pos h]
    have hr := ((piTsdelete_frame s k i).own ho).threadChangeEpri i (s.piTsdelete k i).2
    rw [show ((s.piTsdelete k i).1.thread i).pri = (s.thread i).pri by rw [hth]] at hr
    exact ⟨_, _, hr, rfl, .inl rfl⟩

theorem Own.piWaive_frame (k : K) (i : T) : Frame s (s.piWaive k i) := by
  obtain ⟨s2, epri, hr, heq, -⟩ := ho.waive_repri k i
  rw [heq]
  exact ((piTsdelete_frame s k i).trans hr.frame).trans (Frame.setTs rfl rfl rfl rfl)

theorem Own.piWaive_inh (hi : Inh s) {i : T} (h : (s.ts k).inheritor = some i) : Inh (s.piWaive k i) := by
  obtain ⟨s2, epri, hr, heq, -⟩ := ho.waive_repri k i
  have hprio : ∀ u, (s2.thread u).prioinv = ((s.piTsdelete k i).1.thread u).prioinv := fun u => by
    by_cases hu : u = i
    · rw [hu, hr.self]
    · rw [hr.other u hu]
  rw [heq]
  refine hi.remove (k := k) (fun u j => ?_) (fun u => ?_) (by simp) (fun j hj => ?_) (fun j _ hj => ?_)
  · rw [Sys.setTs_thread, hprio]
    exact hi.mem_piTsdelete h u j
  · rw [Sys.setTs_thread, hprio]
    exact hi.nodup_piTsdelete i u
  · rw [Sys.setTs_ts, update_of_ne hj, hr.ts j]
    rfl
  · exact (((piTsdelete_frame s k i).trans hr.frame).active j).2 hj

end

end Osol.Turnstile
