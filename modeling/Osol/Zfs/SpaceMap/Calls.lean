import Osol.Zfs.SpaceMap.Fold

/-!
# Sequences of calls on space maps

Any number of space maps, and any sequence of calls on them that pass their checks.
The segments of every map stay maximally coalesced and consistent with `sm_space` and
the picker tree, and the set a map denotes is what unions and differences of the call
ranges make it.

Two things a caller has to see to, and the callers of `space_map.c` do: a range may
not run past the last 64-bit offset, where `start + size` wraps and the checks of
`space_map_add` pass all the same; and a map with a picker tree is not vacated, since
`space_map_vacate` leaves `sm_pp_root` alone (`space_map_unload` unloads it first).
-/

namespace Osol.Zfs

open Osol.Lib SpaceMap Function Option Set

variable {ι : Type} [DecidableEq ι]

/-- Space maps reached from `space_map_create` by calls that return, each with the set
that the calls should have made. -/
inductive Calls (zfsRecover : Bool) (geom : ι → ℕ × ℕ × ℕ) : (ι → SpaceMap) → (ι → Set ℕ) → Prop
  | create : Calls zfsRecover geom
      (fun i => spaceMapCreate (geom i).1 (geom i).2.1 (geom i).2.2) (fun _ => ∅)
  | call {m S sm'} (i : ι) (o : SegOp) (start size : ℕ) : Calls zfsRecover geom m S →
      start + size < 2 ^ 64 → o.call zfsRecover (m i) start size = some sm' →
      Calls zfsRecover geom (update m i sm')
        (update S i (o.apply (S i) (Ico start (start + size))))
  | vacate {m S r} (i : ι) (order : List ℕ) : Calls zfsRecover geom m S →
      order.Perm (m i).smRoot → (m i).smPpRoot = none →
      spaceMapVacate order none (m i) () = some r →
      Calls zfsRecover geom (update m i r.1) (update S i ∅)
  | vacateTo {m S r} (i j : ι) (o : SegOp) (order : List ℕ) : Calls zfsRecover geom m S →
      i ≠ j → order.Perm (m i).smRoot → (m i).smPpRoot = none →
      spaceMapVacate order (some (o.call zfsRecover)) (m i) (m j) = some r →
      Calls zfsRecover geom (update (update m i r.1) j r.2)
        (update (update S i ∅) j (o.apply (S j) (S i)))
  | ppLoad {m S sm'} (i : ι) : Calls zfsRecover geom m S → (m i).smPpRoot = none →
      metaslabPpLoad (m i) = some sm' → Calls zfsRecover geom (update m i sm') S
  | ppUnload {m S} (i : ι) : Calls zfsRecover geom m S →
      Calls zfsRecover geom (update m i (metaslabPpUnload (m i))) S

/-- What holds of each map after any calls. -/
structure Tracks (geom : ℕ × ℕ × ℕ) (sm : SpaceMap) (S : Set ℕ) : Prop where
  inv : sm.Inv
  denote : sm.denote = S
  start : sm.smStart = geom.1
  size : sm.smSize = geom.2.1
  shift : sm.smShift = geom.2.2

theorem Tracks.becomes {geom : ℕ × ℕ × ℕ} {sm sm' : SpaceMap} {S T : Set ℕ}
    (h : Tracks geom sm S) (hb : sm.Becomes sm' T) : Tracks geom sm' T :=
  ⟨hb.inv, hb.denote, hb.frame.start.trans h.start, hb.frame.size.trans h.size,
    hb.frame.shift.trans h.shift⟩

variable {zfsRecover : Bool} {geom : ι → ℕ × ℕ × ℕ} {m : ι → SpaceMap} {S : ι → Set ℕ}

theorem tracks_update (h : ∀ i, Tracks (geom i) (m i) (S i)) {i : ι} {sm' : SpaceMap} {T : Set ℕ}
    (hi : Tracks (geom i) sm' T) (j : ι) :
    Tracks (geom j) (update m i sm' j) (update S i T j) := by
  by_cases hij : j = i
  · subst hij
    simpa using hi
  · simpa [hij] using h j

theorem Calls.tracks (h : Calls zfsRecover geom m S) : ∀ i, Tracks (geom i) (m i) (S i) := by
  induction h with
  | create => exact fun i => ⟨create_inv _ _ _, create_denote _ _ _, rfl, rfl, rfl⟩
  | call i o start size _ hw hr ih =>
    have hb := SegOp.becomes (ih i).inv hw hr
    rw [(ih i).denote] at hb
    exact tracks_update ih ((ih i).becomes hb)
  | vacate i order _ _ hpp hr ih =>
    cases hr
    exact tracks_update ih ((ih i).becomes (vacated hpp))
  | @vacateTo m S r i j o order _ hij ho hpp hr ih =>
    obtain ⟨d, hd, hr⟩ := bind_eq_some_iff.1 hr
    cases hr
    have hb := (ih i).inv.forAll ho (ih j).inv hd
    rw [(ih i).denote, (ih j).denote] at hb
    have hi := tracks_update ih ((ih i).becomes (vacated hpp))
    exact tracks_update hi ((ih j).becomes hb)
  | @ppLoad m S sm' i _ hpp hr ih =>
    obtain ⟨pp, hr', hinv⟩ := (ih i).inv.ppLoad
    rw [hr] at hr'
    cases hr'
    intro j
    by_cases hij : j = i
    · subst hij
      simpa using ⟨hinv, (ih j).denote, (ih j).start, (ih j).size, (ih j).shift⟩
    · simpa [hij] using ih j
  | @ppUnload m S i _ ih =>
    intro j
    by_cases hij : j = i
    · subst hij
      simpa using ⟨(ih j).inv.ppUnload, (ih j).denote, (ih j).start, (ih j).size, (ih j).shift⟩
    · simpa [hij] using ih j

set_option maxRecDepth 4000 in
/-- Without the two conditions on the callers the trees come apart. A picker tree
still holds the freed segment of a vacated map; and a range that wraps passes every
check of `space_map_add` and becomes a segment that ends before it starts. -/
theorem callers_must_unload_and_not_wrap :
    (∃ sm1 sm2 sm3, metaslabPpLoad (spaceMapCreate 0 4096 9) = some sm1 ∧
      spaceMapAdd false sm1 0 512 = some sm2 ∧ [0].Perm sm2.smRoot ∧
      spaceMapVacate [0] none sm2 () = some (sm3, ()) ∧
      sm3.smRoot = [] ∧ sm3.smPpRoot = some [0]) ∧
    (∃ sm, spaceMapAdd false (spaceMapCreate 0 (2 ^ 64 - 512) 9) (2 ^ 64 - 512) 1024 = some sm ∧
      sm.segs = [⟨2 ^ 64 - 512, 512⟩]) :=
  ⟨⟨_, _, _, rfl, rfl, .refl _, rfl, rfl, rfl⟩, _, rfl, rfl⟩

/-- After any sequence of calls that pass their checks, with ranges that do not wrap
and maps vacated without a picker tree: the segments are non-empty, aligned, inside
the map, and a gap apart; `sm_space` is their total size; the picker tree holds the
same segments by size and start; the map denotes what unions and differences of the
call ranges make; and `space_map_contains` decides inclusion in it. -/
theorem spaceMap_consistent (h : Calls zfsRecover geom m S) (i : ι) :
    (∀ ss ∈ (m i).segs, ss.ssStart < ss.ssEnd ∧ 2 ^ (geom i).2.2 ∣ ss.ssStart ∧
      2 ^ (geom i).2.2 ∣ ss.ssEnd ∧ (geom i).1 ≤ ss.ssStart ∧
      ss.ssEnd ≤ (geom i).1 + (geom i).2.1) ∧
    (m i).segs.Pairwise (fun a b => a.ssEnd < b.ssStart) ∧
    (m i).smSpace = ((m i).segs.map SpaceSeg.len).sum ∧
    (∀ pp, (m i).smPpRoot = some pp → pp.Perm (m i).smRoot ∧
      (pp.map (m i).smSeg).Pairwise SpaceSeg.Before) ∧
    {x | ∃ ss ∈ (m i).segs, ss.ssStart ≤ x ∧ x < ss.ssEnd} = S i ∧
    ∀ start size, start + size < 2 ^ 64 → size ≠ 0 → 2 ^ (geom i).2.2 ∣ start →
      2 ^ (geom i).2.2 ∣ size → ∃ b, spaceMapContains (m i) start size = some b ∧
        (b = true ↔ Ico start (start + size) ⊆ S i) := by
  have ht := h.tracks i
  have hinv := ht.inv
  refine ⟨?_, ?_, ?_, ?_, ?_, ?_⟩
  · intro ss hss
    obtain ⟨a, ha, rfl⟩ := List.mem_map.1 hss
    have hf := hinv.fits a ha
    rw [← ht.shift, ← ht.start, ← ht.size]
    exact ⟨hinv.sep.pos a ha, hf.start_dvd, hf.stop_dvd, hf.start_le, hf.stop_le⟩
  · rw [segs, List.pairwise_map]
    exact hinv.sep.order
  · rw [segs, List.map_map]
    exact hinv.space
  · intro pp hpp
    have hok := hinv.pp pp hpp
    rw [List.pairwise_map]
    exact ⟨hok.perm, hok.sorted⟩
  · rw [← ht.denote]
    simp only [segs, List.mem_map, exists_exists_and_eq_and]
    rfl
  · intro start size hw hsize h1 h2
    rw [← ht.denote]
    rw [← ht.shift] at h1 h2
    exact hinv.contains hw hsize h1 h2

theorem spaceMap_consistent_vacated : ∃ m : Bool → SpaceMap,
    (m true).segs = [⟨0, 512⟩, ⟨1024, 2048⟩] ∧ (m false).segs = [] ∧
    (m true).smSpace = ((m true).segs.map SpaceSeg.len).sum ∧
    {x | ∃ ss ∈ (m true).segs, ss.ssStart ≤ x ∧ x < ss.ssEnd} =
      Ico 0 (0 + 2048) \ Ico 512 (512 + 512) := by
  have h0 : Calls false (fun _ => (0, 4096, 9)) _ _ := Calls.create (ι := Bool)
  have h₁ := Calls.call false .add 0 2048 h0 (by decide)
    (some_get (by decide +kernel)).symm
  have h₂ := Calls.ppLoad false h₁ (by decide +kernel) (some_get (by decide +kernel)).symm
  have h3 := Calls.call false .remove 512 512 h₂ (by decide)
    (some_get (by decide +kernel)).symm
  have h4 := Calls.ppUnload false h3
  have h5 := Calls.vacateTo false true .add [1, 0] h4 (by decide) (by decide +kernel)
    (by decide +kernel) (some_get (by decide +kernel)).symm
  obtain ⟨_, _, hspace, _, hset, _⟩ := spaceMap_consistent h5 true
  refine ⟨_, by decide +kernel, by decide +kernel, hspace, hset.trans ?_⟩
  simp [SegOp.apply]

/-- Without `zfs_recover` the checks are exact: a range can be removed just when all of it is there,
and added just when nothing of it is. -/
theorem spaceMap_checks_exact (h : Calls false geom m S) (i : ι) {start size : ℕ} (hsize : size ≠ 0)
    (hfit : (m i).Fits ⟨start, start + size⟩) (hsm : (m i).smStart + (m i).smSize < 2 ^ 64) :
    ((spaceMapRemove false (m i) start size).isSome ↔ Ico start (start + size) ⊆ S i) ∧
    ((spaceMapAdd false (m i) start size).isSome ↔ Disjoint (Ico start (start + size)) (S i)) := by
  obtain ⟨hi, hS, -⟩ := h.tracks i
  obtain ⟨hdvd, hdvd', hstart, hstop, hw⟩ := hfit
  rw [Nat.dvd_add_right hdvd] at hdvd'
  have hlt : start < start + size := by omega
  rw [← hS, isSome_iff_exists, isSome_iff_exists]
  refine ⟨⟨fun ⟨_, hr⟩ => ?_, fun hs => ?_⟩, ⟨fun ⟨_, hr⟩ => ?_, fun hd => ?_⟩⟩
  · simp only [spaceMapRemove, spaceMapRemoveChecked, verify_bind_eq_some, uadd_of_lt hw] at hr
    obtain ⟨-, -, -, hr⟩ := hr
    split at hr
    · cases hr
    · next ss hf =>
      simp only [verify_bind_eq_some] at hr
      exact fun x hx => ⟨ss, (hi.findSeg_some hlt hf).1, hr.1.trans hx.1, hx.2.trans_le hr.2.1⟩
  · exact (hi.remove_of_subset false hsize hdvd hdvd' hs).imp fun _ hr => hr.1
  · by_contra hd
    obtain ⟨ss, hf⟩ := hi.findSeg_of_not_disjoint hlt hd
    simp only [spaceMapAdd, spaceMapAddChecked, verify_bind_eq_some, uadd_of_lt hw] at hr
    split at hr
    · simp [zfsPanicRecover] at hr
    · next hf' => simp [hf'] at hf
  · exact (hi.add_of_disjoint false hsize hsm hstart hstop hdvd hdvd' hd).imp fun _ hr => hr.1

/-- A segment is split by a removal and its upper half grows. What is free of the gap can be added
and what is in a half removed, but no range that lies partly in both. -/
theorem spaceMap_checks_exact_split : ∃ sm : SpaceMap, sm.segs = [⟨0, 512⟩, ⟨1024, 2560⟩] ∧
    (spaceMapRemove false sm 1024 1536).isSome ∧ ¬ (spaceMapRemove false sm 0 1024).isSome ∧
    (spaceMapAdd false sm 512 512).isSome ∧ ¬ (spaceMapAdd false sm 512 1024).isSome := by
  obtain ⟨m, S, h, hsegs, hS⟩ : ∃ m S, Calls false (fun _ : Unit => (0, 4096, 9)) m S ∧
      (m ()).segs = [⟨0, 512⟩, ⟨1024, 2560⟩] ∧ ∀ x, x ∈ S () ↔ x < 512 ∨ 1024 ≤ x ∧ x < 2560 := by
    have h0 : Calls false (fun _ : Unit => (0, 4096, 9)) _ _ := .create
    have h₁ := Calls.call () .add 0 2048 h0 (by decide) (some_get (by decide +kernel)).symm
    have h₂ := Calls.call () .remove 512 512 h₁ (by decide) (some_get (by decide +kernel)).symm
    have h₃ := Calls.call () .add 2048 512 h₂ (by decide) (some_get (by decide +kernel)).symm
    refine ⟨_, _, h₃, by decide +kernel, fun x => ?_⟩
    simp only [SegOp.apply, update_self, empty_union, mem_union, mem_sdiff, mem_Ico]
    omega
  obtain ⟨-, -, hstart, hsize, hshift⟩ := h.tracks ()
  have hfit : ∀ a n, 2 ^ 9 ∣ a → 2 ^ 9 ∣ n → a + n ≤ 4096 → (m ()).Fits ⟨a, a + n⟩ :=
    fun a n ha hn hle => ⟨hshift ▸ ha, hshift ▸ dvd_add ha hn, hstart ▸ Nat.zero_le a,
      by rw [hstart, hsize]; simpa using hle, hle.trans_lt (by decide)⟩
  have hsm : (m ()).smStart + (m ()).smSize < 2 ^ 64 := by rw [hstart, hsize]; decide
  refine ⟨m (), hsegs,
    (spaceMap_checks_exact h () (by decide) (hfit 1024 1536 (by decide) (by decide) (by decide))
      hsm).1.2 fun x hx => (hS x).2 (.inr hx),
    fun hr => ?_,
    (spaceMap_checks_exact h () (by decide) (hfit 512 512 (by decide) (by decide) (by decide)) hsm).2.2 ?_,
    fun hr => ?_⟩
  · have hsub := (spaceMap_checks_exact h () (by decide)
      (hfit 0 1024 (by decide) (by decide) (by decide)) hsm).1.1 hr
    exact absurd ((hS 512).1 (hsub (by decide))) (by decide)
  · exact disjoint_left.2 fun x hx hmem => absurd ((hS x).1 hmem) (by rw [mem_Ico] at hx; omega)
  · have hdis := (spaceMap_checks_exact h () (by decide)
      (hfit 512 1024 (by decide) (by decide) (by decide)) hsm).2.1 hr
    exact disjoint_left.1 hdis (show 1024 ∈ _ by decide) ((hS 1024).2 (by decide))

end Osol.Zfs
