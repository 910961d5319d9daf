import Osol.Cyclic.SoftRun

/-!
# Leaving a cyclic

`cyclic_softint` reads `cy_pend`, a count of 32 bits without sign, into variables with sign. It
goes on to the next entry when it finds that it took the last one off the count.
-/

namespace Osol.Cyc

open Function Option List

variable {s s' : Sys} {l : SoftLevel} {e : Event}

/-- The next expiration of a cyclic enqueues it. -/
def Enqueues (cpu : CycCpu) (l : SoftLevel) (ndx : ℕ) : Prop :=
  (((expireSoft cpu l ndx).softbuf l).buf (cpu.softbuf l).hard).prodndx =
    ((cpu.softbuf l).buf (cpu.softbuf l).hard).prodndx + 1

theorem enqueues_iff (cpu : CycCpu) (l : SoftLevel) (ndx : ℕ) :
    Enqueues cpu l ndx ↔ (cpu.cyclics ndx).pend = 0 := by
  unfold Enqueues expireSoft
  by_cases h : (cpu.cyclics ndx).pend = 0 <;> simp [h, CycCpu.setCyclic, CycCpu.softint]

theorem softStep_cas {sh : Shared} {t : Thread} {r : Shared × Thread}
    (h : softStep sh l t = some r) (hpc : r.2.pc = .cas) : 0 < r.2.pend ∧ r.2.pend < 2 ^ 32 := by
  unfold softStep at h
  split at h <;> grind [map_eq_some_iff]

/-- A count that is about to be taken from is a word other than zero. -/
def CasPos (s : Sys) : Prop :=
  ∀ l, (s.thread l).pc = .cas → 0 < (s.thread l).pend ∧ (s.thread l).pend < 2 ^ 32

theorem CasPos.update {t : Thread} (h : CasPos s) (l : SoftLevel) (sh : Shared)
    (ht : t.pc = .cas → 0 < t.pend ∧ t.pend < 2 ^ 32) : CasPos ⟨sh, update s.thread l t⟩ := by
  intro l'
  show (Function.update s.thread l t l').pc = _ → 0 < (Function.update s.thread l t l').pend ∧
    (Function.update s.thread l t l').pend < 2 ^ 32
  by_cases hl : l' = l
  · subst hl
    rwa [update_self]
  · rw [update_of_ne hl]
    exact h l'

theorem CasPos.next (h : CasPos s) (hstep : next s e = some s') : CasPos s' := by
  unfold Cyc.next at hstep
  split at hstep
  · obtain ⟨-, hs⟩ := ite_none_right_eq_some.1 hstep
    cases hs
    exact h.update _ _ nofun
  · obtain ⟨r, hr, rfl⟩ := map_eq_some_iff.1 hstep
    exact h.update _ _ (softStep_cas hr)
  · obtain ⟨sh, -, rfl⟩ := map_eq_some_iff.1 hstep
    exact h
  · obtain ⟨sh, -, rfl⟩ := map_eq_some_iff.1 hstep
    exact h

theorem CasPos.run : ∀ {es : List Event} {s s' : Sys}, CasPos s → run s es = some s' → CasPos s'
  | [], _, _, h, hr => Option.some.inj hr ▸ h
  | _ :: _, _, _, h, hr => by
    obtain ⟨s1, hs, hr⟩ := bind_eq_some_iff.1 hr
    exact (h.next hs).run hr

theorem cas_advance {sh : Shared} {t : Thread} {r : Shared × Thread} (hcas : t.pc = .cas)
    (h0 : 0 < t.pend) (hlt : t.pend < 2 ^ 32)
    (hstep : softStep sh l t = some r) (hadv : r.2.pc = .advance) :
    r.1 = sh.setPend t.cyclics t.ndx (t.pend - 1) ∧ ¬(2 ≤ t.pend ∧ t.pend ≤ 2 ^ 31) ∧
      ∃ a, r.1.array t.cyclics = some a ∧ (a t.ndx).pend = t.pend - 1 := by
  unfold softStep at hstep
  rw [hcas] at hstep
  obtain ⟨a, ha, rfl⟩ := map_eq_some_iff.1 hstep
  simp only [toNat_npend h0 hlt, npend_pos_iff h0 hlt] at hadv ⊢
  split at hadv
  · next heq =>
    rw [if_pos heq]
    refine ⟨rfl, fun hn => ?_, ?_⟩
    · rw [if_pos hn] at hadv
      cases hadv
    unfold Shared.array at ha
    unfold Shared.setPend
    split_ifs at ha with hg hg'
    · rw [if_pos hg]
      exact ⟨_, if_pos hg, by simp [CycCpu.setCyclic]⟩
    · rw [if_neg hg, ha]
      exact ⟨_, (if_neg hg).trans (if_pos hg'), by simp⟩
  · cases hadv

/-- Whatever has happened before, `cyclic_softint` leaves a cyclic with nothing pending, so that
its next expiration enqueues it again, exactly when the count it took from was at most
`2 ^ 31`. -/
theorem softint_leaves_zero_iff {es : List Event} (hrun : run .initial es = some s)
    (hcas : (s.thread l).pc = .cas) (hstep : next s (.soft l) = some s')
    (hadv : (s'.thread l).pc = .advance) :
    ∃ a, s'.shared.array (s.thread l).cyclics = some a ∧
      ((a (s.thread l).ndx).pend = 0 ↔ (s.thread l).pend ≤ 2 ^ 31) ∧
      (s'.shared.gen = (s.thread l).cyclics →
        (Enqueues s'.shared.cpu l (s.thread l).ndx ↔ (s.thread l).pend ≤ 2 ^ 31)) := by
  obtain ⟨hpos, hlt⟩ : 0 < (s.thread l).pend ∧ (s.thread l).pend < 2 ^ 32 := by
    refine CasPos.run ?_ hrun l hcas
    intro l h
    cases h
  obtain ⟨r, hr, rfl⟩ := map_eq_some_iff.1 hstep
  have hadv' : r.2.pc = .advance := by simpa using hadv
  obtain ⟨-, hn, a, ha, hpend⟩ := cas_advance hcas hpos hlt hr hadv'
  refine ⟨a, ha, by omega, fun hgen => ?_⟩
  rw [Shared.array, if_pos hgen.symm] at ha
  rw [enqueues_iff, Option.some.inj ha]
  omega

def once : List Event := [.add ⟨7, 8, .soft .low⟩ 5 100 0 0, .expire 0]

/-- From the call of `cyclic_softint` to the `cas32`. -/
def toCas : List Event := .start .low :: replicate 10 (.soft .low)

theorem toCas_some : (run .initial (once ++ toCas)).isSome = true := by decide +kernel

def beforeCas : Sys := (run .initial (once ++ toCas)).get toCas_some

theorem afterCas_some : (next beforeCas (.soft .low)).isSome = true := by decide +kernel

theorem softint_leaves_zero_once :
    ∃ a, ((next beforeCas (.soft .low)).get afterCas_some).shared.array 0 = some a ∧
      (a 0).pend = 0 := by
  obtain ⟨a, ha, hz, -⟩ := softint_leaves_zero_iff
    (some_get toCas_some).symm (by decide +kernel) (some_get afterCas_some).symm
    (by decide +kernel)
  exact ⟨a, ha, hz.2 (by decide +kernel)⟩

/-- The cyclic 0 has expired `n` times. -/
def Sys.pended (s : Sys) (n : ℕ) : Sys :=
  { s with shared := { s.shared with
      cpu := s.shared.cpu.setCyclic 0 { s.shared.cpu.cyclics 0 with pend := n }
      expired := update s.shared.expired 0 n
      large := update s.shared.large 0 (decide (2 ^ 31 ≤ n)) } }

section

variable {n : ℕ} (hlev : (s.shared.cpu.cyclics 0).level = .soft .low)
  (hsize : 0 < s.shared.cpu.size) (hfree : (s.shared.cpu.cyclics 0).free = false)
  (hposted : s.shared.cpu.posted .low = true) (hpos : 0 < n)
include hlev hsize hfree hposted hpos

theorem Sys.next_pended (hlt : n < 2 ^ 32 - 1) :
    next (s.pended n) (.expire 0) = some (s.pended (n + 1)) := by
  have hmod : (n + 1) % 4294967296 = n + 1 := Nat.mod_eq_of_lt (by omega)
  have hlarge : (decide (2147483648 ≤ n) || decide (2147483647 ≤ n)) = decide (2147483647 ≤ n) := by
    rw [← Bool.decide_or]
    exact decide_eq_decide.2 (by omega)
  have hsame : update s.shared.cpu.posted .low true = s.shared.cpu.posted :=
    update_eq_self_iff.2 hposted.symm
  simp [next, expireStep, expireSoft, Sys.pended, CycCpu.setCyclic, CycCpu.softint, Cyclic.free,
    hlev, hsize, hpos.ne', hmod, hlarge, hsame]
  exact bne_eq_false_iff_eq.1 hfree

theorem Sys.run_pended {k : ℕ} (hlt : n + k < 2 ^ 32) :
    run (s.pended n) (replicate k (.expire 0)) = some (s.pended (n + k)) := by
  induction k generalizing n with
  | zero => rfl
  | succ k ih =>
    show (next (s.pended n) (.expire 0) >>= fun s => run s (replicate k (.expire 0))) = _
    rw [Sys.next_pended hlev hsize hfree hposted hpos (by omega), show n + (k + 1) = n + 1 + k by omega]
    exact ih (by omega) (by omega)

end

theorem Sys.pended_one (h1 : (s.shared.cpu.cyclics 0).pend = 1) (h2 : s.shared.expired 0 = 1)
    (h3 : s.shared.large 0 = false) : s.pended 1 = s := by
  have hcyc : update s.shared.cpu.cyclics 0 { s.shared.cpu.cyclics 0 with pend := 1 } =
    s.shared.cpu.cyclics := by
    rw [update_eq_self_iff, ← h1]
  have hexp : update s.shared.expired 0 1 = s.shared.expired := update_eq_self_iff.2 h2.symm
  have hlarge : update s.shared.large 0 (decide (2 ^ 31 ≤ 1)) = s.shared.large :=
    update_eq_self_iff.2 h3.symm
  rw [Sys.pended, CycCpu.setCyclic, hcyc, hexp, hlarge]

theorem run_append {es : List Event} (h : run s es = some s') (rest : List Event) :
    run s (es ++ rest) = run s' rest := by
  rw [run, foldlM_append]
  show (run s es >>= fun s => run s rest) = _
  rw [h]
  rfl

theorem once_some : (run .initial once).isSome = true := by decide +kernel

/-- A cyclic that expired `2 ^ 31 + 1` times before its soft interrupt is left with `2 ^ 31`
pending. -/
theorem softint_leaves_pending :
    ∃ es, (run .initial es).map (fun s => ((s.thread .low).pc, (s.shared.cpu.cyclics 0).pend)) =
        some (.cas, 2 ^ 31 + 1) ∧
      (run .initial (es ++ [.soft .low])).map (fun s =>
        ((s.thread .low).pc, (s.shared.cpu.cyclics 0).pend)) = some (.advance, 2 ^ 31) := by
  have hone : ((run .initial once).get once_some).pended 1 = (run .initial once).get once_some :=
    Sys.pended_one (by decide +kernel) (by decide +kernel) (by decide +kernel)
  have hmany : ∀ rest, run .initial (once ++ (replicate (2 ^ 31) (.expire 0) ++ rest)) =
      run (((run .initial once).get once_some).pended (1 + 2 ^ 31)) rest := by
    intro rest
    have hrun := Sys.run_pended (s := (run .initial once).get once_some) (n := 1) (k := 2 ^ 31)
      (by decide +kernel) (by decide +kernel) (by decide +kernel) (by decide +kernel) (by omega)
      (by omega)
    rw [hone] at hrun
    rw [run_append (some_get once_some).symm, run_append hrun]
  refine ⟨once ++ (replicate (2 ^ 31) (.expire 0) ++ toCas), ?_, ?_⟩
  · rw [hmany]
    decide +kernel
  · rw [append_assoc, append_assoc, hmany]
    decide +kernel

end Osol.Cyc
