import Osol.Zfs.Txg.Basic

/-!
# Transaction groups in flight

The invariant places every group by one number, the next group the sync thread will take
(`State.next`): the group before it may be syncing, the group itself is open, quiescing
or quiesced, and in the latter two cases the one after it is open.
-/

namespace Osol.Zfs.Txg

open List

variable {ncpus first : ℕ} {st st' : State}

theorem of_guard {c : Prop} [Decidable c] (h : (if c then some st else none) = some st') :
    c ∧ st = st' := by
  simpa using h

/-! ## The invariant -/

/-- The next group for the sync thread. -/
def State.next (first : ℕ) (st : State) : ℕ :=
  first + st.spaSyncs.length + match st.tx.txSyncThread with
    | .taken _ => 1
    | _ => 0

/-- What the position of the sync thread says. -/
def SyncAt (next syncing synced : ℕ) : SyncPc → Prop
  | .taken txg => txg + 1 = next ∧ syncing = txg ∧ synced < txg
  | .syncing txg => txg + 1 = next ∧ syncing = txg ∧ synced < txg
  | _ => syncing = 0 ∧ synced < next

/-- What the position of the quiesce thread says. -/
def QuiesceAt (ncpus next quiesced opn : ℕ) (tcLock : ℕ → TcLock) (holds : ℕ → ℕ → ℕ) :
    QuiescePc → Prop
  | .locking txg c => quiesced = 0 ∧ txg = next ∧ opn = next ∧ c ≤ ncpus ∧
      ∀ d < c, tcLock d = .quiesce
  | .unlocking txg c => quiesced = 0 ∧ txg = next ∧ opn = next + 1 ∧
      ∀ d, c ≤ d → d < ncpus → tcLock d = .quiesce
  | .draining txg c => quiesced = 0 ∧ txg = next ∧ opn = next + 1 ∧ ∀ d < c, holds d txg = 0
  | _ => quiesced = 0 ∧ opn = next ∨ quiesced = next ∧ opn = next + 1

/-- Whether the quiesce thread still waits for holds of the group before the open one. -/
def Leaving : QuiescePc → Prop
  | .unlocking _ _ => True
  | .draining _ _ => True
  | _ => False

/-- The invariant of the machine. -/
structure Inv (ncpus first : ℕ) (st : State) : Prop where
  pos : 0 < first
  spaSyncs : st.spaSyncs = range' first st.spaSyncs.length
  sync : SyncAt (st.next first) st.tx.txSyncingTxg st.tx.txSyncedTxg st.tx.txSyncThread
  quiesce : QuiesceAt ncpus (st.next first) st.tx.txQuiescedTxg st.tx.txOpenTxg st.tx.tcLock
    st.holds st.tx.txQuiesceThread
  /-- Holds are in the open group, or in the one that is left. -/
  holds : ∀ c n, st.holds c n ≠ 0 → c < ncpus ∧
    (n = st.tx.txOpenTxg ∨ n + 1 = st.tx.txOpenTxg ∧ Leaving st.tx.txQuiesceThread)
  /-- The slots of the groups around the open one count the holds of those groups. -/
  counts : ∀ c n, st.tx.txOpenTxg ≤ n + 1 → n ≤ st.tx.txOpenTxg + 2 →
    st.tx.tcCount c (txgSlot n) = st.holds c n
  locks : ∀ c, st.tx.tcLock c ≠ .free → c < ncpus
  chosen : ∀ c txg, st.tx.tcLock c = .chosen txg → txg = st.tx.txOpenTxg

theorem init_inv (ncpus : ℕ) (h : 0 < first) : Inv ncpus first ⟨txgInit first, fun _ _ => 0, []⟩ := by
  refine ⟨h, rfl, ⟨rfl, ?_⟩, .inl ⟨rfl, rfl⟩, ?_, fun _ _ _ _ => rfl, ?_, ?_⟩
  · exact h
  · simp
  · simp [txgInit]
  · simp [txgInit]

theorem modify2_apply (f : ℕ → ℕ → ℕ) (i j v c n : ℕ) :
    modify2 f i j v c n = if c = i ∧ n = j then v else f c n := by
  unfold modify2
  by_cases hc : c = i
  · subst hc
    by_cases hn : n = j
    · subst hn
      simp
    · simp [hn]
  · simp [hc]

theorem modify2_slot (f : ℕ → ℕ → ℕ) {s m n : ℕ} (i v c : ℕ) (hm : s ≤ m) (hm' : m ≤ s + 3)
    (hn : s ≤ n) (hn' : n ≤ s + 3) :
    modify2 f i (txgSlot m) v c (txgSlot n) = if c = i ∧ n = m then v else f c (txgSlot n) := by
  simp only [modify2_apply, txgSlot_inj hn hn' hm hm']

/-! ## Holders -/

theorem QuiesceAt.mono {next quiesced opn : ℕ} {tcLock tcLock' : ℕ → TcLock}
    {holds holds' : ℕ → ℕ → ℕ} {pc : QuiescePc}
    (h : QuiesceAt ncpus next quiesced opn tcLock holds pc)
    (hl : ∀ d, tcLock d = .quiesce → tcLock' d = .quiesce)
    (hh : opn = next + 1 → ∀ d, holds d next = 0 → holds' d next = 0) :
    QuiesceAt ncpus next quiesced opn tcLock' holds' pc := by
  cases pc with
  | stopped => exact h
  | idle => exact h
  | locking txg c =>
    obtain ⟨h1, h2, h3, h4, h5⟩ := h
    exact ⟨h1, h2, h3, h4, fun d hd => hl d (h5 d hd)⟩
  | unlocking txg c =>
    obtain ⟨h1, h2, h3, h4⟩ := h
    exact ⟨h1, h2, h3, fun d hd hd' => hl d (h4 d hd hd')⟩
  | draining txg c =>
    obtain ⟨h1, rfl, h3, h4⟩ := h
    exact ⟨h1, rfl, h3, fun d hd => hh h3 d (h4 d hd)⟩

section

variable (h : Inv ncpus first st)
include h

theorem Inv.setLock {c : ℕ} {l : TcLock} (hc : st.tx.tcLock c ≠ .quiesce) (hcpu : c < ncpus)
    (hl : ∀ txg, l = .chosen txg → txg = st.tx.txOpenTxg) :
    Inv ncpus first { st with tx := st.tx.setLock c l } := by
  refine ⟨h.pos, h.spaSyncs, h.sync, h.quiesce.mono (fun d hd => ?_) fun _ _ hd => hd, h.holds,
    h.counts, fun d hd => ?_, fun d txg hd => ?_⟩
  · have hne : d ≠ c := by
      rintro rfl
      exact hc hd
    simpa [TxState.setLock, hne] using hd
  · by_cases hdc : d = c
    · exact hdc ▸ hcpu
    · exact h.locks d (by simpa [TxState.setLock, hdc] using hd)
  · by_cases hdc : d = c
    · exact hl txg (by simpa [TxState.setLock, hdc] using hd)
    · exact h.chosen d txg (by simpa [TxState.setLock, hdc] using hd)

/-- The holds of a group that may have them change together with the count in its slot,
and none appears where the quiesce thread has seen none. -/
theorem Inv.setHold {c m v : ℕ} (hcpu : c < ncpus)
    (hm : m = st.tx.txOpenTxg ∨ m + 1 = st.tx.txOpenTxg ∧ Leaving st.tx.txQuiesceThread)
    (hv : m + 1 = st.tx.txOpenTxg → st.holds c m = 0 → v = 0) :
    Inv ncpus first { st with tx := st.tx.setCount c m v, holds := modify2 st.holds c m v } := by
  refine ⟨h.pos, h.spaSyncs, h.sync, h.quiesce.mono (fun d hd => hd) fun ho d hd => ?_,
    fun d n hd => ?_, fun d n hn hn' => ?_, h.locks, h.chosen⟩
  · show modify2 st.holds c m v d (st.next first) = 0
    rw [modify2_apply]
    split
    · next heq =>
      obtain ⟨rfl, hmn⟩ := heq
      exact hv (by omega) (hmn ▸ hd)
    · exact hd
  · change modify2 st.holds c m v d n ≠ 0 at hd
    rw [modify2_apply] at hd
    split at hd
    · next heq =>
      obtain ⟨rfl, rfl⟩ := heq
      exact ⟨hcpu, hm⟩
    · exact h.holds d n hd
  · change st.tx.txOpenTxg ≤ n + 1 at hn
    change n ≤ st.tx.txOpenTxg + 2 at hn'
    show modify2 st.tx.tcCount c (txgSlot m) v d (txgSlot n) = modify2 st.holds c m v d n
    rw [modify2_slot (s := st.tx.txOpenTxg - 1) _ _ _ _ (by omega) (by omega)
      (by omega) (by omega), modify2_apply, h.counts d n hn hn']

theorem Inv.holdStep {c : ℕ} {e : Event}
    (hs : holdStep ncpus st c e = some st') : Inv ncpus first st' := by
  unfold Txg.holdStep at hs
  split at hs
  · -- `holdEnter`
    obtain ⟨hc, rfl⟩ := of_guard hs
    exact h.setLock (by simp [hc.2]) hc.1 (by simp)
  · -- `holdChoose`
    obtain ⟨hc, rfl⟩ := of_guard hs
    refine h.setLock (by simp [hc]) (h.locks c (by simp [hc])) fun txg ht => ?_
    simpa using ht.symm
  · -- `holdReturn`: the group that was read is still the open one
    split at hs
    · next txg hc =>
      cases hs
      obtain rfl := h.chosen c txg hc
      have hcpu := h.locks c (by simp [hc])
      have hl : Inv ncpus first { st with tx := st.tx.setLock c .held } :=
        h.setLock (by simp [hc]) hcpu (by simp)
      rw [h.counts c _ (by omega) (by omega)]
      exact hl.setHold hcpu (.inl rfl) fun h' => absurd h' (Nat.succ_ne_self _)
    · cases hs
  · -- `releToQuiesce`
    obtain ⟨hc, rfl⟩ := of_guard hs
    exact h.setLock (by simp [hc]) (h.locks c (by simp [hc])) (by simp)
  · -- `releToSync`
    obtain ⟨hc, rfl⟩ := of_guard hs
    have hin := h.holds c _ (Nat.pos_iff_ne_zero.1 hc.2)
    rw [h.counts c _ (by rcases hin.2 with h' | h' <;> omega)
      (by rcases hin.2 with h' | h' <;> omega)]
    exact h.setHold hin.1 hin.2 fun _ h0 => by rw [h0]
  · cases hs

/-! ## The quiesce thread -/

theorem Inv.holds_open (hl : ¬Leaving st.tx.txQuiesceThread) {c n : ℕ}
    (hn : st.holds c n ≠ 0) : c < ncpus ∧ n = st.tx.txOpenTxg :=
  ⟨(h.holds c n hn).1, (h.holds c n hn).2.resolve_right fun h' => hl h'.2⟩

theorem Inv.setQuiesce {pc : QuiescePc}
    (hpc : QuiesceAt ncpus (st.next first) st.tx.txQuiescedTxg st.tx.txOpenTxg st.tx.tcLock
      st.holds pc) (hl : Leaving st.tx.txQuiesceThread → Leaving pc) :
    Inv ncpus first { st with tx := { st.tx with txQuiesceThread := pc } } := by
  refine ⟨h.pos, h.spaSyncs, h.sync, hpc, fun c n hn => ?_, h.counts, h.locks, h.chosen⟩
  exact ⟨(h.holds c n hn).1, (h.holds c n hn).2.imp_right fun h' => ⟨h'.1, hl h'.2⟩⟩

end

theorem State.first_le_next (first : ℕ) (st : State) : first ≤ st.next first := by
  unfold State.next
  omega

section

variable (h : Inv ncpus first st)
include h

theorem Inv.quiesceStart (hpc : st.tx.txQuiesceThread = .idle) (hz : st.tx.txQuiescedTxg = 0) :
    Inv ncpus first
      { st with tx := { st.tx with txQuiesceThread := .locking st.tx.txOpenTxg 0 } } := by
  have hq := h.quiesce
  rw [hpc] at hq
  have hopen : st.tx.txOpenTxg = st.next first := by
    have := h.pos
    have := State.first_le_next first st
    rcases hq with hq | hq
    · exact hq.2
    · omega
  refine h.setQuiesce ⟨hz, hopen, hopen, Nat.zero_le _, fun d hd => absurd hd (by omega)⟩ ?_
  rw [hpc]
  exact False.elim

theorem Inv.quiesceLock {txg c : ℕ}
    (hpc : st.tx.txQuiesceThread = .locking txg c) (hc : c < ncpus) :
    Inv ncpus first { st with tx := { st.tx.setLock c .quiesce with
      txQuiesceThread := .locking txg (c + 1) } } := by
  have hq := h.quiesce
  rw [hpc] at hq
  obtain ⟨h1, h2, h3, -, h5⟩ := hq
  refine ⟨h.pos, h.spaSyncs, h.sync, ⟨h1, h2, h3, hc, fun d hd => ?_⟩, fun d n hn => ?_,
    h.counts, fun d hd => ?_, fun d t hd => ?_⟩
  · by_cases hdc : d = c
    · simp [TxState.setLock, hdc]
    · simpa [TxState.setLock, hdc] using h5 d (by omega)
  · have := h.holds_open (by rw [hpc]; exact id) hn
    exact ⟨this.1, .inl this.2⟩
  · by_cases hdc : d = c
    · exact hdc ▸ hc
    · exact h.locks d (by simpa [TxState.setLock, hdc] using hd)
  · by_cases hdc : d = c
    · simp [TxState.setLock, hdc] at hd
    · exact h.chosen d t (by simpa [TxState.setLock, hdc] using hd)

/-- With every lock taken nobody is inside `txg_hold_open`. The slot of the group before
the open one, which has no holds left, becomes that of the group three ahead. -/
theorem Inv.quiesceOpen {txg : ℕ} (hpc : st.tx.txQuiesceThread = .locking txg ncpus) :
    Inv ncpus first { st with tx := { st.tx with
      txOpenTxg := st.tx.txOpenTxg + 1, txQuiesceThread := .unlocking txg 0 } } := by
  have hq := h.quiesce
  rw [hpc] at hq
  obtain ⟨h1, h2, h3, -, h5⟩ := hq
  have hpos : 0 < st.tx.txOpenTxg := by
    have := h.pos
    have := State.first_le_next first st
    omega
  have honly : ∀ d n, st.holds d n ≠ 0 → d < ncpus ∧ n = st.tx.txOpenTxg :=
    fun d n => h.holds_open (by rw [hpc]; exact id)
  refine ⟨h.pos, h.spaSyncs, h.sync, ⟨h1, h2, congrArg (· + 1) h3, fun d _ hd => h5 d hd⟩,
    fun d n hn => ⟨(honly d n hn).1, .inr ⟨congrArg (· + 1) (honly d n hn).2, trivial⟩⟩,
    fun d n hn hn' => ?_, h.locks, fun d t hd => ?_⟩
  · change st.tx.txOpenTxg + 1 ≤ n + 1 at hn
    change n ≤ st.tx.txOpenTxg + 1 + 2 at hn'
    by_cases hn3 : n = st.tx.txOpenTxg + 3
    · have hslot : txgSlot n = txgSlot (st.tx.txOpenTxg - 1) := by
        rw [show n = st.tx.txOpenTxg - 1 + 4 by omega, txgSlot_add_four]
      have hold : st.holds d (st.tx.txOpenTxg - 1) = 0 := by
        by_contra hne
        have := (honly d _ hne).2
        omega
      have hnew : st.holds d n = 0 := by
        by_contra hne
        have := (honly d _ hne).2
        omega
      rw [hslot, h.counts d _ (by omega) (by omega), hold, hnew]
    · exact h.counts d n (by omega) (by omega)
  · have hlock : st.tx.tcLock d = .chosen t := hd
    have hd' : d < ncpus := h.locks d (by rw [hlock]; exact TcLock.noConfusion)
    rw [h5 d hd'] at hlock
    cases hlock

theorem Inv.quiesceUnlock {txg c : ℕ} (hpc : st.tx.txQuiesceThread = .unlocking txg c) :
    Inv ncpus first { st with tx := { st.tx.setLock c .free with
      txQuiesceThread := .unlocking txg (c + 1) } } := by
  have hq := h.quiesce
  rw [hpc] at hq
  obtain ⟨h1, h2, h3, h4⟩ := hq
  refine ⟨h.pos, h.spaSyncs, h.sync, ⟨h1, h2, h3, fun d hd hd' => ?_⟩, fun d n hn => ?_,
    h.counts, fun d hd => ?_, fun d t hd => ?_⟩
  · have hdc : d ≠ c := by omega
    simpa [TxState.setLock, hdc] using h4 d (by omega) hd'
  · obtain ⟨hd, hn'⟩ := h.holds d n hn
    exact ⟨hd, hn'.imp_right fun h' => ⟨h'.1, trivial⟩⟩
  · by_cases hdc : d = c
    · simp [TxState.setLock, hdc] at hd
    · exact h.locks d (by simpa [TxState.setLock, hdc] using hd)
  · by_cases hdc : d = c
    · simp [TxState.setLock, hdc] at hd
    · exact h.chosen d t (by simpa [TxState.setLock, hdc] using hd)

theorem Inv.quiesceHandOff {txg : ℕ} (hpc : st.tx.txQuiesceThread = .draining txg ncpus) : Inv ncpus first
      { st with tx := { st.tx with txQuiescedTxg := txg, txQuiesceThread := .idle } } := by
  have hq := h.quiesce
  rw [hpc] at hq
  obtain ⟨h1, rfl, h3, h4⟩ := hq
  refine ⟨h.pos, h.spaSyncs, h.sync, .inr ⟨rfl, h3⟩, fun c n hn => ?_, h.counts, h.locks, h.chosen⟩
  obtain ⟨hc, hn' | ⟨hn', -⟩⟩ := h.holds c n hn
  · exact ⟨hc, .inl hn'⟩
  · have : n = st.next first := by omega
    exact absurd (h4 c hc) (this ▸ hn)

theorem Inv.quiesceStep {e : Event}
    (hs : quiesceStep ncpus st e = some st') : Inv ncpus first st' := by
  have hq := h.quiesce
  unfold Txg.quiesceStep at hs
  split at hs
  · -- `quiesceStart`
    obtain ⟨hc, rfl⟩ := of_guard hs
    exact h.quiesceStart hc.1 hc.2.2.2
  · -- `quiesceLock`
    split at hs
    · next txg c hpc =>
      obtain ⟨hc, rfl⟩ := of_guard hs
      exact h.quiesceLock hpc hc.1
    · cases hs
  · -- `quiesceOpen`
    split at hs
    · next txg c hpc =>
      obtain ⟨hc, rfl⟩ := of_guard hs
      exact h.quiesceOpen (hc ▸ hpc)
    · cases hs
  · -- `quiesceUnlock`
    split at hs
    · next txg c hpc =>
      obtain ⟨-, rfl⟩ := of_guard hs
      exact h.quiesceUnlock hpc
    · cases hs
  · -- `quiesceUnlocked`
    split at hs
    · next txg c hpc =>
      obtain ⟨-, rfl⟩ := of_guard hs
      rw [hpc] at hq
      obtain ⟨h1, h2, h3, -⟩ := hq
      exact h.setQuiesce ⟨h1, h2, h3, fun d hd => absurd hd (by omega)⟩ fun _ => trivial
    · cases hs
  · -- `quiesceDrain`
    split at hs
    · next txg c hpc =>
      obtain ⟨hc, rfl⟩ := of_guard hs
      rw [hpc] at hq
      obtain ⟨h1, h2, h3, h4⟩ := hq
      refine h.setQuiesce ⟨h1, h2, h3, fun d hd => ?_⟩ fun _ => trivial
      rcases Nat.lt_succ_iff_lt_or_eq.1 hd with hd | rfl
      · exact h4 d hd
      · rw [← h.counts d txg (by omega) (by omega)]
        exact hc.2.2
    · cases hs
  · -- `quiesceHandOff`
    split at hs
    · next txg c hpc =>
      obtain ⟨hc, rfl⟩ := of_guard hs
      exact h.quiesceHandOff (hc ▸ hpc)
    · cases hs
  · -- `quiesceExit`
    obtain ⟨hc, rfl⟩ := of_guard hs
    rw [hc.1] at hq
    refine h.setQuiesce hq ?_
    rw [hc.1]
    exact id
  · cases hs

/-! ## The sync thread -/

theorem Inv.setSync {syncing synced : ℕ} {pc : SyncPc} {syncs : List ℕ}
    (hs : syncs = range' first syncs.length) (hnext : State.next first { st with
      tx := { st.tx with txSyncingTxg := syncing, txSyncedTxg := synced, txSyncThread := pc }
      spaSyncs := syncs } = st.next first)
    (hpc : SyncAt (st.next first) syncing synced pc) :
    Inv ncpus first { st with
      tx := { st.tx with txSyncingTxg := syncing, txSyncedTxg := synced, txSyncThread := pc }
      spaSyncs := syncs } := by
  refine ⟨h.pos, hs, ?_, ?_, h.holds, h.counts, h.locks, h.chosen⟩
  · rwa [hnext]
  · rw [hnext]
    exact h.quiesce

theorem Inv.quiesced_eq (hq : st.tx.txQuiescedTxg ≠ 0) :
    st.tx.txQuiescedTxg = st.next first ∧ st.tx.txOpenTxg = st.next first + 1 ∧ ∀ c,
    st.holds c (st.next first) = 0 := by
  have hat := h.quiesce
  have hidle : (st.tx.txQuiescedTxg = st.next first ∧ st.tx.txOpenTxg = st.next first + 1) ∧
      ¬Leaving st.tx.txQuiesceThread := by
    cases hpc : st.tx.txQuiesceThread with
    | stopped | idle =>
      rw [hpc] at hat
      exact ⟨hat.resolve_left fun h' => hq h'.1, id⟩
    | locking | unlocking | draining =>
      rw [hpc] at hat
      exact absurd hat.1 hq
  refine ⟨hidle.1.1, hidle.1.2, fun c => ?_⟩
  by_contra hne
  have := (h.holds_open hidle.2 hne).2
  omega

theorem Inv.syncTake (hpc : st.tx.txSyncThread = .prompting) (hq : st.tx.txQuiescedTxg ≠ 0) :
    Inv ncpus first { st with tx := { st.tx with
      txQuiescedTxg := 0, txSyncingTxg := st.tx.txQuiescedTxg,
      txSyncThread := .taken st.tx.txQuiescedTxg } } := by
  obtain ⟨hq1, hq2, -⟩ := h.quiesced_eq hq
  have hnext : State.next first { st with tx := { st.tx with
      txQuiescedTxg := 0, txSyncingTxg := st.tx.txQuiescedTxg,
      txSyncThread := .taken st.tx.txQuiescedTxg } } = st.next first + 1 := by
    simp [State.next, hpc]
  have hsync := h.sync
  rw [hpc] at hsync
  refine ⟨h.pos, h.spaSyncs, ?_, ?_, h.holds, h.counts, h.locks, h.chosen⟩
  · rw [hnext]
    exact ⟨congrArg (· + 1) hq1, rfl, hq1 ▸ hsync.2⟩
  rw [hnext]
  have hat := h.quiesce
  cases hpc : st.tx.txQuiesceThread with
  | stopped | idle => exact .inl ⟨rfl, hq2⟩
  | locking | unlocking | draining =>
    rw [hpc] at hat
    exact absurd hat.1 hq

theorem Inv.syncStep {e : Event} (hs : syncStep st e = some st') : Inv ncpus first st' := by
  have hsync := h.sync
  unfold Txg.syncStep at hs
  split at hs
  · -- `syncWake`
    obtain ⟨hc, rfl⟩ := of_guard hs
    rw [hc.1] at hsync
    exact h.setSync h.spaSyncs (by simp [State.next, hc.1]) hsync
  · -- `syncPrompt`
    obtain ⟨-, rfl⟩ := of_guard hs
    exact ⟨h.pos, h.spaSyncs, h.sync, h.quiesce, h.holds, h.counts, h.locks, h.chosen⟩
  · -- `syncTake`
    obtain ⟨hc, rfl⟩ := of_guard hs
    exact h.syncTake hc.1 hc.2.2
  · -- `spaSync`
    split at hs
    · next txg hpc =>
      cases hs
      have hnext : st.next first = first + st.spaSyncs.length + 1 := by simp [State.next, hpc]
      rw [hpc] at hsync
      refine h.setSync ?_ (by simp [State.next, hpc]; omega) hsync
      have htxg : txg = first + st.spaSyncs.length := by
        have := hsync.1
        omega
      rw [length_append, length_singleton, range'_1_concat, ← h.spaSyncs, htxg]
    · cases hs
  · -- `syncDone`
    split at hs
    · next txg hpc =>
      cases hs
      rw [hpc] at hsync
      refine h.setSync h.spaSyncs (by simp [State.next, hpc]) ⟨rfl, ?_⟩
      have := hsync.1
      omega
    · cases hs
  · -- `syncExit`
    obtain ⟨hc, rfl⟩ := of_guard hs
    rcases hc.1 with hpc | hpc <;> rw [hpc] at hsync <;>
      exact h.setSync h.spaSyncs (by simp [State.next, hpc]) hsync
  · cases hs

/-! ## Every run -/

theorem Inv.otherStep {e : Event} (hs : otherStep st e = some st') : Inv ncpus first st' := by
  have hwait : ∀ {s q x}, Inv ncpus first { st with tx := { st.tx with
      txSyncTxgWaiting := s, txQuiesceTxgWaiting := q, txExiting := x } } :=
    ⟨h.pos, h.spaSyncs, h.sync, h.quiesce, h.holds, h.counts, h.locks, h.chosen⟩
  unfold Txg.otherStep at hs
  split at hs
  · cases hs
    exact hwait
  · cases hs
    exact hwait
  · -- `syncStart`: both threads start at the head of their loops
    obtain ⟨hc, rfl⟩ := of_guard hs
    have hsync := h.sync
    have hq := h.quiesce
    rw [hc.2.1] at hsync
    rw [hc.1] at hq
    have hidle := h.setQuiesce (show QuiesceAt _ _ _ _ _ _ .idle from hq) (by rw [hc.1]; exact id)
    exact hidle.setSync h.spaSyncs (by simp [State.next, hc.2.1]) hsync
  · cases hs
    exact hwait
  · obtain ⟨-, rfl⟩ := of_guard hs
    exact hwait
  · cases hs

theorem Inv.step {e : Event} (hs : step ncpus st e = some st') : Inv ncpus first st' := by
  unfold Txg.step at hs
  split at hs
  case h_1 | h_2 | h_3 | h_4 | h_5 => exact h.holdStep hs
  case h_6 | h_7 | h_8 | h_9 | h_10 | h_11 | h_12 | h_13 => exact h.quiesceStep hs
  case h_14 | h_15 | h_16 | h_17 | h_18 | h_19 => exact h.syncStep hs
  case h_20 => exact h.otherStep hs

end

theorem Reachable.inv (hfirst : 0 < first) (h : Reachable ncpus first st) : Inv ncpus first st := by
  induction h with
  | init => exact init_inv ncpus hfirst
  | step _ hs ih => exact ih.step hs

/-! ## Where the groups are -/

/-- The group the quiesce thread works on. -/
def QuiescePc.txg : QuiescePc → ℕ
  | .locking txg _ => txg
  | .unlocking txg _ => txg
  | .draining txg _ => txg
  | _ => 0

section

variable (h : Inv ncpus first st)
include h

theorem Inv.open_cases : (st.tx.txOpenTxg = st.next first ∨ st.tx.txOpenTxg = st.next first + 1) ∧
      (Leaving st.tx.txQuiesceThread → st.tx.txOpenTxg = st.next first + 1) ∧
      (st.tx.txQuiesceThread.txg = 0 ∨ st.tx.txQuiesceThread.txg = st.next first) ∧
      (st.tx.txQuiescedTxg = 0 ∨ st.tx.txQuiescedTxg = st.next first ∧
        st.tx.txOpenTxg = st.next first + 1) := by
  have hq := h.quiesce
  cases hpc : st.tx.txQuiesceThread with
  | stopped | idle =>
    rw [hpc] at hq
    rcases hq with hq | hq
    · exact ⟨.inl hq.2, False.elim, .inl rfl, .inl hq.1⟩
    · exact ⟨.inr hq.2, False.elim, .inl rfl, .inr hq⟩
  | locking =>
    rw [hpc] at hq
    exact ⟨.inl hq.2.2.1, False.elim, .inr hq.2.1, .inl hq.1⟩
  | unlocking | draining =>
    rw [hpc] at hq
    exact ⟨.inr hq.2.2.1, fun _ => hq.2.2.1, .inr hq.2.1, .inl hq.1⟩

theorem Inv.sync_cases : st.tx.txSyncingTxg = 0 ∧ st.tx.txSyncedTxg < st.next first ∨
      st.tx.txSyncingTxg + 1 = st.next first ∧ st.tx.txSyncedTxg < st.tx.txSyncingTxg := by
  have hs := h.sync
  cases hpc : st.tx.txSyncThread with
  | stopped | idle | prompting =>
    rw [hpc] at hs
    exact .inl hs
  | taken | syncing =>
    rw [hpc] at hs
    obtain ⟨h1, h2, h3⟩ := hs
    exact .inr ⟨h2 ▸ h1, h2 ▸ h3⟩

theorem Inv.synced {txg : ℕ} (ht : txg ∈ st.spaSyncs) :
    txg < st.tx.txOpenTxg ∧ (∀ c, st.holds c txg = 0) ∧ ∀ c, st.tx.tcLock c ≠ .chosen txg := by
  have hlt : txg < st.next first := by
    rw [h.spaSyncs, mem_range'_1] at ht
    unfold State.next
    omega
  obtain ⟨hopen, hleave, -, -⟩ := h.open_cases
  refine ⟨by omega, fun c => ?_, fun c hc => ?_⟩
  · by_contra hne
    rcases (h.holds c txg hne).2 with hn | ⟨hn, hl⟩
    · omega
    · have := hleave hl
      omega
  · have := h.chosen c txg hc
    omega

theorem Inv.pairwise : ([st.tx.txSyncedTxg, st.tx.txSyncingTxg, st.tx.txQuiescedTxg,
      st.tx.txOpenTxg].filter (· ≠ 0)).Pairwise (· < ·) := by
  obtain ⟨hopen, -, -, hq⟩ := h.open_cases
  have hs := h.sync_cases
  rw [pairwise_filter]
  simp only [pairwise_cons, mem_cons, not_mem_nil, or_false, decide_eq_true_eq,
    forall_eq_or_imp, forall_eq, Pairwise.nil, and_true, false_imp_iff, implies_true]
  omega

end

/-- The groups that are open, quiescing, quiesced or syncing. -/
def State.live (st : State) : Finset ℕ :=
  ({st.tx.txOpenTxg, st.tx.txQuiesceThread.txg, st.tx.txQuiescedTxg, st.tx.txSyncingTxg} :
    Finset ℕ).filter (· ≠ 0)

section

variable (h : Inv ncpus first st)
include h

theorem Inv.live_subset : st.live ⊆ Finset.Icc (st.tx.txOpenTxg - 2) st.tx.txOpenTxg := by
  intro n hn
  simp only [State.live, Finset.mem_filter, Finset.mem_insert, Finset.mem_singleton] at hn
  rw [Finset.mem_Icc]
  obtain ⟨hopen, -, hpc, hq⟩ := h.open_cases
  have hs := h.sync_cases
  omega

theorem Inv.live_card : st.live.card ≤ 3 := by
  refine (Finset.card_le_card h.live_subset).trans ?_
  rw [Nat.card_Icc]
  omega

theorem Inv.live_slot : Set.InjOn txgSlot st.live := by
  intro m hm n hn heq
  have hm' := Finset.mem_Icc.1 (h.live_subset hm)
  have hn' := Finset.mem_Icc.1 (h.live_subset hn)
  exact (txgSlot_inj (s := st.tx.txOpenTxg - 2) (by omega) (by omega) (by omega) (by omega)).1 heq

/-- The slot of a live group counts its holds. For the group two before the open one it is
the slot of the group two ahead, which nobody holds yet. -/
theorem Inv.live_count {n : ℕ} (hn : n ∈ st.live) (c : ℕ) : st.tx.tcCount c (txgSlot n) = st.holds c n := by
  have hw := Finset.mem_Icc.1 (h.live_subset hn)
  have hzero : ∀ m, m ≠ st.tx.txOpenTxg → m + 1 ≠ st.tx.txOpenTxg → st.holds c m = 0 := by
    intro m h1 h2
    by_contra hne
    rcases (h.holds c m hne).2 with h' | h'
    · exact h1 h'
    · exact h2 h'.1
  by_cases hn2 : n + 2 = st.tx.txOpenTxg
  · rw [← txgSlot_add_four, h.counts c (n + 4) (by omega) (by omega), hzero _ (by omega) (by omega),
      hzero n (by omega) (by omega)]
  · exact h.counts c n (by omega) (by omega)

end

theorem step_spaSyncs {e : Event} (hs : step ncpus st e = some st') : st.spaSyncs <+: st'.spaSyncs := by
  have hkeep : ∀ tx holds, some (State.mk tx holds st.spaSyncs) = some st' →
    st.spaSyncs <+: st'.spaSyncs := by
    rintro tx holds ⟨⟩
    exact prefix_refl _
  unfold Txg.step at hs
  split at hs
  case h_17 =>
    simp only [Txg.syncStep] at hs
    split at hs
    · cases hs
      exact prefix_append _ _
    · cases hs
  all_goals
    simp only [Txg.holdStep, Txg.quiesceStep, Txg.syncStep, Txg.otherStep] at hs
    repeat' split at hs
  all_goals first | exact hkeep _ _ hs | cases hs

/-- Every run of the state machine. `spa_sync` is entered with consecutive groups; once it
is entered with a group nobody holds that group, at that time or later, nor does
`txg_hold_open` return it; the counters are in the order of the pipeline; and the groups in
flight are at most three and have slots of their own, which count their holds. -/
theorem txg_pipeline_safe (hfirst : 0 < first) (h : Reachable ncpus first st) :
    st.spaSyncs = range' first st.spaSyncs.length ∧
      (∀ st', Relation.ReflTransGen (fun a b => ∃ e, step ncpus a e = some b) st st' →
        ∀ txg ∈ st.spaSyncs, (∀ c, st'.holds c txg = 0) ∧ ∀ c, st'.tx.tcLock c ≠ .chosen txg) ∧
      ([st.tx.txSyncedTxg, st.tx.txSyncingTxg, st.tx.txQuiescedTxg, st.tx.txOpenTxg].filter
        (· ≠ 0)).Pairwise (· < ·) ∧
      st.live.card ≤ 3 ∧ Set.InjOn txgSlot st.live ∧
      ∀ n ∈ st.live, ∀ c, st.tx.tcCount c (txgSlot n) = st.holds c n := by
  have hi := h.inv hfirst
  refine ⟨hi.spaSyncs, fun st' hsteps txg ht => ?_, hi.pairwise, hi.live_card, hi.live_slot,
    fun n hn c => hi.live_count hn c⟩
  have hlater : Reachable ncpus first st' ∧ st.spaSyncs <+: st'.spaSyncs := by
    induction hsteps with
    | refl => exact ⟨h, prefix_refl _⟩
    | tail _ hs ih =>
      obtain ⟨e, hs⟩ := hs
      exact ⟨ih.1.step hs, ih.2.trans (step_spaSyncs hs)⟩
  exact ((hlater.1.inv hfirst).synced (hlater.2.subset ht)).2

/-- A run on one CPU in which the first group syncs while the second one is open and held. -/
def syncingEvents : List Event :=
  [.syncStart, .holdEnter 0, .holdChoose 0, .holdReturn 0, .releToQuiesce 0, .waitOpen 5,
    .quiesceStart, .quiesceLock, .quiesceOpen, .quiesceUnlock, .quiesceUnlocked, .holdEnter 0,
    .holdChoose 0, .holdReturn 0, .releToQuiesce 0, .releToSync 0 4, .quiesceDrain,
    .quiesceHandOff, .syncWake false, .syncTake, .spaSync]

theorem txg_pipeline_safe_syncing :
    ∃ st, Reachable 1 txgInitial st ∧ st.live = {4, 5} ∧ st.spaSyncs = [4] ∧
      st.holds 0 5 = 1 ∧ st.live.card ≤ 3 := by
  have hr : ∃ st, run 1 ⟨txgInit txgInitial, fun _ _ => 0, []⟩ syncingEvents = some st ∧
      st.live = {4, 5} ∧ st.spaSyncs = [4] ∧ st.holds 0 5 = 1 :=
    ⟨_, rfl, by decide, rfl, by decide⟩
  obtain ⟨st, hrun, hlive, hsyncs, hhold⟩ := hr
  have hreach : Reachable 1 txgInitial st := Reachable.init.run hrun
  exact ⟨st, hreach, hlive, hsyncs, hhold, (txg_pipeline_safe (by decide) hreach).2.2.2.1⟩

end Osol.Zfs.Txg
