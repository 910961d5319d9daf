import Osol.Zfs.Metaslab.Run
import Osol.Zfs.SpaceMap.RoundTrip

/-!
# What a metaslab guarantees

Whenever the in-core map is loaded it is what the synced log leaves free, less the
deferred frees and the allocations in flight, so nothing in use is handed out, and
nothing freed through a free map before two more groups have synced. And a pass that
condenses the log writes the same state as one that appends to it.
-/

namespace Osol.Zfs

open Option Set

variable {zfsRecover : Bool} {g : Region} {st : State}

/-! ## The in-core map and reuse -/

/-- In every reachable state: a loaded `ms_map` is the replay of the synced object behind
`ms_smo`, minus both deferred maps, minus every allocation that `ms_smo` does not have;
an allocation hands out only offsets that have no owner, are allocated neither in the
synced nor in the syncing state nor in any group in flight, and, if they were freed in
group `f` through its free map, have had `metaslab_sync_done` for `f + 1` and `f + 2`;
and no legal call panics. -/
theorem metaslab_safe (h : Reachable zfsRecover g st) : (st.ms.msMap.smLoaded = true → ∀ ops : Bool,
      ∃ sm, spaceMapLoad zfsRecover ops .free st.ms.msSmo st.syncedObj (fun _ => 0)
          (spaceMapCreate g.start g.size g.shift) = some (sm, 0) ∧
        st.ms.msMap.denote = ((sm.denote \ (st.ms.msDefermap 0).denote) \
          (st.ms.msDefermap 1).denote) \ st.ledger.pending) ∧
    (∀ offset size txg, (Event.alloc offset size txg).Legal g st →
      ∀ x ∈ Ico offset (offset + size), st.ledger.owner x = none ∧ x ∉ st.ledger.synced ∧
        x ∉ st.ledger.syncing ∧ x ∉ st.ledger.pending ∧
        ∀ f, st.ledger.freedIn x = some f → f + 1 ∈ st.ledger.dones ∧ f + 2 ∈ st.ledger.dones) ∧
    (∀ e : Event, e.Legal g st → ∃ ms', e.run zfsRecover st.ms = some ms') := by
  have hok := h.ok
  refine ⟨fun hl ops => ?_, fun offset size txg he x hx => ?_, fun e he => ?_⟩
  · obtain ⟨-, -, hc⟩ := hok.inCore.of_loaded hl
    have hempty : (spaceMapCreate g.start g.size g.shift).Empty g :=
      ⟨⟨rfl, rfl, rfl⟩, rfl, rfl, rfl⟩
    obtain ⟨sm, hr, -, hd, -⟩ := spaceMapLoad_spec zfsRecover ops .free hempty hok.logs.synced
    refine ⟨sm, hr, ?_⟩
    rw [hc.denote, hd, (hok.defers.map 0 (by omega)).denote, (hok.defers.map 1 (by omega)).denote]
    rfl
  · obtain ⟨hl, -, -, -, hsub⟩ := he
    obtain ⟨-, -, hc⟩ := hok.inCore.of_loaded hl
    have hav : x ∈ st.ledger.avail g.whole := hc.denote ▸ hsub hx
    obtain ⟨ho, hs, hf⟩ := hok.ok.reuse hav
    obtain ⟨-, hsy, -, ha⟩ := hok.ok.avail_notMem hav
    exact ⟨ho, hsy, hs, fun ⟨n, hn⟩ => ha n hn, hf⟩
  · obtain ⟨ms', hr, -⟩ := hok.step he
    exact ⟨ms', hr⟩

/-! ## Runs from a new metaslab -/

/-- The state after a call. -/
noncomputable def State.after (st : State) (e : Event) : State :=
  e.next st ((e.run false st.ms).getD st.ms)

theorem Reachable.after (h : Reachable false g st) {e : Event} (he : e.Legal g st) :
    Step false g st e (st.after e) ∧ Reachable false g (st.after e) := by
  obtain ⟨ms', hr, -⟩ := h.ok.step he
  have hs : Step false g st e (st.after e) := ⟨he, ms', hr, by rw [State.after, hr]; rfl⟩
  exact ⟨hs, .step h hs⟩

theorem subset_denote {sm : SpaceMap} (ss : SpaceSeg) (h : ss ∈ sm.segs) {a b : ℕ}
    (ha : ss.ssStart ≤ a) (hb : b ≤ ss.ssEnd) : Ico a b ⊆ sm.denote := by
  obtain ⟨i, hi, rfl⟩ := List.mem_map.1 h
  exact fun x hx => ⟨i, hi, ha.trans hx.1, hx.2.trans_le hb⟩

theorem eightSectors_range {k n : ℕ} (hn : 0 < n) (hk : k + n ≤ 8) :
    eightSectors.Range (4096 + 512 * k) (512 * n) := by
  refine ⟨by omega, ?_, ?_, ?_, ?_⟩
  · exact (Nat.dvd_add_right (by decide)).2 (Dvd.intro k rfl)
  · exact Dvd.intro n rfl
  · exact Nat.le_add_right 4096 _
  · change 4096 + 512 * k + 512 * n ≤ 4096 + 8 * 2 ^ 9
    omega

/-- A metaslab of a new pool. -/
noncomputable def newState : State :=
  ⟨(metaslabInit false false false SpaceMap.smRoot 0 ⟨0, 0⟩ ⟨fun _ => 0, 0⟩ 4096 4096 9 4).get
    (by decide +kernel), .initial ∅ 4, ⟨fun _ => 0, 0⟩⟩

theorem newState_reachable : Reachable false eightSectors newState :=
  .opened (fun _ => .refl _) (holds_empty eightSectors _) le_rfl (by decide) (fun _ => rfl)
    (some_get (by decide +kernel)).symm

/-- Its map is loaded. -/
noncomputable def active : State := ((newState.after .loadBegin).after .loadEnd).after (.sort true)

theorem active_reachable : Reachable false eightSectors active := by
  have h₁ := (newState_reachable.after (e := .loadBegin) ⟨by decide +kernel, by decide +kernel⟩).2
  have h₂ := (h₁.after (e := .loadEnd) ⟨⟨0, 0, 4096⟩, by decide +kernel, by decide⟩).2
  exact (h₂.after (e := .sort true) fun _ => by decide +kernel).2

/-- Two sectors are allocated and one of them is freed; the group syncs, the map is unloaded and
loaded again. Then a third sector is allocated and the second one freed. -/
noncomputable def deferring : State :=
  [.alloc 4096 1024 4, .free 100 4096 512 4 false, .sort false, .sync 4 1 SpaceMap.smRoot,
    .syncDone 4 false false SpaceMap.smRoot, .loadBegin, .loadRead 0, .loadEnd, .sort true,
    .alloc 6144 512 5, .free 100 4608 512 5 false].foldl State.after active

theorem deferring_reachable : Reachable false eightSectors deferring := by
  have h₁ := (active_reachable.after (e := .alloc 4096 1024 4) ⟨by decide +kernel, by decide +kernel,
    ⟨le_rfl, by decide⟩, eightSectors_range (k := 0) (n := 2) (by decide) (by decide),
    subset_denote ⟨4096, 8192⟩ (by decide +kernel) (by decide) (by decide)⟩).2
  have h₂ := (h₁.after (e := .free 100 4096 512 4 false) ⟨⟨le_rfl, by decide⟩,
    eightSectors_range (k := 0) (n := 1) (by decide) (by decide),
    fun x hx => ⟨4, le_rfl, if_pos ⟨hx.1, hx.2.trans (by decide)⟩⟩⟩).2
  have h₃ := (h₂.after (e := .sort false) nofun).2
  have h₄ := (h₃.after (e := .sync 4 1 SpaceMap.smRoot)
    ⟨rfl, by decide +kernel, fun _ => .refl _⟩).2
  have h₅ := (h₄.after (e := .syncDone 4 false false SpaceMap.smRoot)
    ⟨rfl, by decide +kernel, by decide +kernel, by decide +kernel, fun _ => .refl _⟩).2
  have h₆ := (h₅.after (e := .loadBegin) ⟨by decide +kernel, by decide +kernel⟩).2
  have h₇ := (h₆.after (e := .loadRead 0) ⟨⟨0, 32, 3584⟩, by decide +kernel, by decide⟩).2
  have h₈ := (h₇.after (e := .loadEnd) ⟨⟨4096, 32, 3584⟩, by decide +kernel, by decide⟩).2
  have h₉ := (h₈.after (e := .sort true) fun _ => by decide +kernel).2
  have h₁₀ := (h₉.after (e := .alloc 6144 512 5) ⟨by decide +kernel, by decide +kernel,
    ⟨le_rfl, by decide⟩, eightSectors_range (k := 4) (n := 1) (by decide) (by decide),
    subset_denote ⟨5120, 8192⟩ (by decide +kernel) (by decide) (by decide)⟩).2
  exact (h₁₀.after (e := .free 100 4608 512 5 false) ⟨⟨le_rfl, by decide⟩,
    eightSectors_range (k := 1) (n := 1) (by decide) (by decide), fun x hx => ⟨4, by decide,
      (if_neg fun h => by have := h.1; have := hx.2; omega).trans
        ((if_neg fun h => by have := h.2; have := hx.1; omega).trans
          (if_pos ⟨by have := hx.1; omega, hx.2⟩))⟩⟩).2

/-- Both groups have synced after the first one. -/
noncomputable def reusable : State :=
  [.sync 5 1 SpaceMap.smRoot, .syncDone 5 false false SpaceMap.smRoot, .sync 6 1 SpaceMap.smRoot,
    .syncDone 6 false false SpaceMap.smRoot].foldl State.after deferring

theorem reusable_reachable : Reachable false eightSectors reusable := by
  have h₁ := (deferring_reachable.after (e := .sync 5 1 SpaceMap.smRoot)
    ⟨rfl, by decide +kernel, fun _ => .refl _⟩).2
  have h₂ := (h₁.after (e := .syncDone 5 false false SpaceMap.smRoot)
    ⟨rfl, by decide +kernel, by decide +kernel, by decide +kernel, fun _ => .refl _⟩).2
  have h₃ := (h₂.after (e := .sync 6 1 SpaceMap.smRoot)
    ⟨rfl, by decide +kernel, fun _ => .refl _⟩).2
  exact (h₃.after (e := .syncDone 6 false false SpaceMap.smRoot)
    ⟨rfl, by decide +kernel, by decide +kernel, by decide +kernel, fun _ => .refl _⟩).2

/-- The freed sector is kept back while the map is loaded again, and handed out when two more groups
have synced. -/
theorem metaslab_safe_reused :
    (deferring.ms.msMap.segs, (deferring.ms.msDefermap 0).segs) =
      ([⟨5120, 6144⟩, ⟨6656, 8192⟩], [⟨4096, 4608⟩]) ∧
    (∃ sm, spaceMapLoad false true .free deferring.ms.msSmo deferring.syncedObj (fun _ => 0)
        (spaceMapCreate 4096 4096 9) = some (sm, 0) ∧
      deferring.ms.msMap.denote = ((sm.denote \ (deferring.ms.msDefermap 0).denote) \
        (deferring.ms.msDefermap 1).denote) \ deferring.ledger.pending) ∧
    (∀ x ∈ Ico 4096 4608, reusable.ledger.owner x = none ∧ x ∉ reusable.ledger.synced ∧
      reusable.ledger.freedIn x = some 4 ∧ 5 ∈ reusable.ledger.dones ∧ 6 ∈ reusable.ledger.dones) ∧
    ∃ ms', (Event.alloc 4096 512 7).run false reusable.ms = some ms' := by
  have hl : (Event.alloc 4096 512 7).Legal eightSectors reusable := ⟨by decide +kernel,
    by decide +kernel, ⟨le_rfl, by decide⟩, eightSectors_range (k := 0) (n := 1) (by decide) (by decide),
    subset_denote ⟨4096, 4608⟩ (by decide +kernel) (by decide) (by decide)⟩
  have hsafe := metaslab_safe reusable_reachable
  refine ⟨by decide +kernel, (metaslab_safe deferring_reachable).1 (by decide +kernel) true,
    fun x hx => ?_, hsafe.2.2 _ hl⟩
  obtain ⟨ho, hs, -, -, hf⟩ := hsafe.2.1 4096 512 7 hl x hx
  have hfreed : reusable.ledger.freedIn x = some 4 :=
    (if_neg fun h => not_lt.2 h.1 (hx.2.trans_le (by decide))).trans
      ((if_neg fun h => not_lt.2 h.1 (hx.2.trans_le (by decide))).trans (if_pos hx))
  exact ⟨ho, hs, hfreed, hf 4 hfreed⟩

/-! ## Frees that are not deferred -/

/-- A range that is freed with `now` set goes back to the map at once: it is allocated,
freed and allocated again in one group, with no `metaslab_sync_done` at all. -/
theorem freed_now_is_reused : ∃ st1 st2 st3 st4 : State, Reachable false eightSectors st1 ∧
    Step false eightSectors st1 (.alloc 4096 512 4) st2 ∧
    Step false eightSectors st2 (.free 4 4096 512 4 true) st3 ∧
    Step false eightSectors st3 (.alloc 4096 512 4) st4 ∧ st4.ledger.dones = ∅ := by
  have hl : ∀ {st : State}, st.ms.msMap.smLoaded = true → st.ms.msActive = true → st.ledger.txg = 4 →
      ⟨4096, 8192⟩ ∈ st.ms.msMap.segs → (Event.alloc 4096 512 4).Legal eightSectors st :=
    fun h1 h2 ht hs => ⟨h1, h2, ⟨ht.le, by omega⟩,
      eightSectors_range (k := 0) (n := 1) (by decide) (by decide),
      subset_denote _ hs (by decide) (by decide)⟩
  obtain ⟨s₂, h₂⟩ := active_reachable.after
    (hl (by decide +kernel) (by decide +kernel) rfl (by decide +kernel))
  obtain ⟨s₃, h₃⟩ := h₂.after (e := .free 4 4096 512 4 true) ⟨⟨le_rfl, by decide⟩,
    eightSectors_range (k := 0) (n := 1) (by decide) (by decide), fun x hx => if_pos hx,
    subset_denote ⟨4096, 4608⟩ (by decide +kernel) (by decide) (by decide)⟩
  obtain ⟨s₄, -⟩ := h₃.after (hl (by decide +kernel) (by decide +kernel) rfl (by decide +kernel))
  exact ⟨_, _, _, _, active_reachable, s₂, s₃, s₄, rfl⟩

/-! ## Condensing -/

/-- In every reachable state with the map loaded, and for any choice of `zfs_recover`,
the pass returns when it condenses and when it appends; with `zfs_recover` unset the
removal of a range that is not there is a panic, so no walk of the condense branch meets
one. The two objects have the same `smo_alloc` and load to the same free set. -/
theorem condense_eq_append (h : Reachable zfsRecover g st) (hl : st.ms.msMap.smLoaded = true)
    {order order' : SpaceMap → List ℕ} (ho : ∀ sm : SpaceMap, (order sm).Perm sm.smRoot)
    (ho' : ∀ sm : SpaceMap, (order' sm).Perm sm.smRoot) (recover ops : Bool) :
    ∃ ms1 ms2, metaslabWrite recover true 1 st.ledger.txg order st.ms = some ms1 ∧
      metaslabWrite recover false 1 st.ledger.txg order' st.ms = some ms2 ∧
      ms1.msSmoSyncing.smoAlloc = ms2.msSmoSyncing.smoAlloc ∧
      ∃ sm1 sm2,
        spaceMapLoad recover ops .free ms1.msSmoSyncing ms1.msObj (fun _ => 0)
          (spaceMapCreate g.start g.size g.shift) = some (sm1, 0) ∧
        spaceMapLoad recover ops .free ms2.msSmoSyncing ms2.msObj (fun _ => 0)
          (spaceMapCreate g.start g.size g.shift) = some (sm2, 0) ∧
        sm1.denote = sm2.denote := by
  have hok := h.ok
  have hc := (hok.inCore.of_loaded hl).2.2
  have hempty : (spaceMapCreate g.start g.size g.shift).Empty g :=
    ⟨⟨rfl, rfl, rfl⟩, rfl, rfl, rfl⟩
  obtain ⟨fm1, o1, hw1, -, -, -, hh1, -⟩ := metaslabWrite_spec ho st.ms recover true 1 hok.ok
    hok.pos hok.groups hok.defers hok.logs.syncing fun _ => hc
  obtain ⟨fm2, o2, hw2, -, -, -, hh2, -⟩ := metaslabWrite_spec ho' st.ms recover false 1 hok.ok
    hok.pos hok.groups hok.defers hok.logs.syncing fun _ => hc
  obtain ⟨sm1, hr1, -, hd1, -⟩ := spaceMapLoad_spec recover ops .free hempty hh1
  obtain ⟨sm2, hr2, -, hd2, -⟩ := spaceMapLoad_spec recover ops .free hempty hh2
  exact ⟨_, _, hw1, hw2, hh1.alloc.trans hh2.alloc.symm, sm1, sm2, hr1, hr2, hd1.trans hd2.symm⟩

/-- Something is allocated, something freed and something deferred. -/
theorem condense_eq_append_deferring :
    ((deferring.ms.msAllocmap 1).segs, (deferring.ms.msFreemap 1).segs,
      (deferring.ms.msDefermap 0).segs) = ([⟨6144, 6656⟩], [⟨4608, 5120⟩], [⟨4096, 4608⟩]) ∧
    ∃ ms1 ms2, metaslabWrite false true 1 5 SpaceMap.smRoot deferring.ms = some ms1 ∧
      metaslabWrite false false 1 5 SpaceMap.smRoot deferring.ms = some ms2 ∧
      ms1.msSmoSyncing.smoAlloc = ms2.msSmoSyncing.smoAlloc ∧
      ∃ sm1 sm2,
        spaceMapLoad false true .free ms1.msSmoSyncing ms1.msObj (fun _ => 0)
          (spaceMapCreate 4096 4096 9) = some (sm1, 0) ∧
        spaceMapLoad false true .free ms2.msSmoSyncing ms2.msObj (fun _ => 0)
          (spaceMapCreate 4096 4096 9) = some (sm2, 0) ∧ sm1.denote = sm2.denote :=
  ⟨by decide +kernel, condense_eq_append deferring_reachable (by decide +kernel) (fun _ => .refl _)
    (fun _ => .refl _) false true⟩

end Osol.Zfs
