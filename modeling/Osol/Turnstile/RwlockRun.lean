import Osol.Turnstile.Will

/-!
# Runs of readers/writer locks with inheritance

Any number of threads enter and leave any number of locks. In every state of a run the turnstiles
agree with the locks: only the owner of a lock inherits from its turnstile, everyone who is blocked on
a lock has willed its priority to the owner, and no chain of blocked owners closes. So a thread that
owns a lock runs at the priority of the threads that are blocked behind it, and at its own when
there are none.
-/

namespace Osol.Turnstile

open Lib Rwlock List Option Function

variable {T L K B : Type} {env : Env T L B} {things : List K} {base : T → ℕ} {s s' : RwSys T L K B}
  {t : T} {k : K} {l : L} {rw : Krw} {fuel : ℕ} {owner : L → Option T} {ts : Sys T L K B}

/-! ## Locks -/

/-- A lock with waiters is held, a writer is its only holder, and what waits behind readers is a
writer. -/
structure Lock.Ok (lk : Lock T) : Prop where
  held : lk.waiters = true → lk.owner ≠ none ∨ lk.count ≠ 0
  wanted : lk.wanted = true → lk.waiters = true
  exclusive : lk.owner ≠ none → lk.count = 0
  shared : lk.owner = none → lk.waiters = true → lk.wanted = true

/-- The thread is the writer that holds the lock, or readers hold it. -/
def Lock.HeldBy (lk : Lock T) (t : T) : Prop := lk.owner = some t ∨ lk.owner = none ∧ lk.count ≠ 0

variable {lk : Lock T}

theorem Lock.Ok.enter (h : lk.Ok) (hb : lk.busy rw = false) (t : T) : (lk.enter t rw).Ok := by
  have hnone : lk.owner = none := by cases rw <;> simpa [Lock.busy] using (Bool.or_eq_false_iff.1 hb).1
  cases rw with
  | reader => exact ⟨fun _ => .inr (Nat.succ_ne_zero _), h.wanted, fun ho => absurd hnone ho, h.shared⟩
  | writer =>
    have hcount : lk.count = 0 := by simpa [Lock.busy] using (Bool.or_eq_false_iff.1 hb).2
    exact ⟨fun _ => .inl (by simp [Lock.enter]), h.wanted, fun _ => hcount,
      fun ho => by simp [Lock.enter] at ho⟩

theorem Lock.Ok.held_of_busy (h : lk.Ok) (hb : lk.busy rw = true) : lk.owner ≠ none ∨ lk.count ≠ 0 := by
  cases rw with
  | reader =>
    rcases Bool.or_eq_true_iff.1 hb with hb | hb
    · exact .inl (isSome_iff_ne_none.1 hb)
    · exact h.held (h.wanted hb)
  | writer =>
    rcases Bool.or_eq_true_iff.1 hb with hb | hb
    · exact .inl (isSome_iff_ne_none.1 hb)
    · exact .inr (by simpa using hb)

theorem Lock.Ok.wait (h : lk.Ok) (hb : lk.busy rw = true) : (lk.wait rw).Ok := by
  have hheld := h.held_of_busy hb
  cases rw with
  | reader => exact ⟨fun _ => hheld, fun _ => rfl, h.exclusive, fun ho _ =>
    (Bool.or_eq_true_iff.1 hb).resolve_left (by simp [show lk.owner = none from ho])⟩
  | writer => exact ⟨fun _ => hheld, fun _ => rfl, h.exclusive, fun _ _ => rfl⟩

theorem Lock.exit_bits (lk : Lock T) :
    lk.exit.waiters = lk.waiters ∧ lk.exit.wanted = lk.wanted ∧ lk.exit.owner = none := by
  unfold Lock.exit
  cases ho : lk.owner <;> simp

theorem Lock.Ok.exit (h : lk.Ok) (hl : lk.exit.last = false) : lk.exit.Ok := by
  obtain ⟨h1, h2, h3⟩ := lk.exit_bits
  have hcount : lk.exit.waiters = true → lk.exit.count ≠ 0 := fun hw hc => by
    rw [Lock.last, h3, hc, hw] at hl
    simp at hl
  refine ⟨fun hw => .inr (hcount hw), fun hw => ?_, fun ho => absurd h3 ho, fun _ hw => ?_⟩
  · rw [h1]
    exact h.wanted (h2 ▸ hw)
  · -- a writer does not leave others behind
    have hnone : lk.owner = none := by
      by_contra ho
      exact hcount hw (by simp [Lock.exit, Option.isSome_iff_ne_none.2 ho, h.exclusive ho])
    rw [h2]
    exact h.shared hnone (h1 ▸ hw)

/-! ## Sleepers -/

/-- Someone sleeps on the lock, in this queue. -/
def Sleeps (ts : Sys T L K B) (l : L) (q : Qnum) : Prop :=
  ∃ t k, (ts.thread t).sleepq = some (k, q) ∧ (ts.thread t).wchan = some l

theorem Sleeps.frame {ts' : Sys T L K B} {q : Qnum} (h : Sleeps ts l q) (hf : Frame ts ts') :
    Sleeps ts' l q := by
  obtain ⟨t, k, hsq, hl⟩ := h
  exact ⟨t, k, (hf.sleepq t).trans hsq, (hf.wchan t).trans hl⟩

/-- The waiting bits of a lock are true. -/
structure Lock.Awaited (lk : Lock T) (ts : Sys T L K B) (l : L) : Prop where
  waiters : lk.waiters = true → ∃ q, Sleeps ts l q
  wanted : lk.wanted = true → Sleeps ts l .writer

theorem rwReadersToWake_of_nil (hq : (ts.ts k).sleepq .writer = []) :
    RwSys.rwReadersToWake ts k = ((ts.ts k).sleepq .reader).length := by
  unfold RwSys.rwReadersToWake
  rw [hq]
  refine congrArg length (takeWhile_eq_self_iff.2 fun u _ => decide_eq_true ?_)
  dsimp only
  omega

theorem piWaive_sleepq [DecidableEq T] [DecidableEq K] (k : K) {i : T}
    (hi : (ts.thread i).sleepq = none) (j : K)
    (q : Qnum) : ((ts.piWaive k i).ts j).sleepq q = (ts.ts j).sleepq q := by
  have hset : ∀ ts : Sys T L K B, ((ts.setTs k fun ts => { ts with inheritor := none }).ts j).sleepq q =
      (ts.ts j).sleepq q := fun ts => by by_cases hj : j = k <;> simp [hj]
  unfold Sys.piWaive
  dsimp only
  rw [hset]
  unfold Sys.threadChangeEpri Sys.changePri
  split_ifs
  · rfl
  · simp [Sys.piTsdelete, hi]
  · rfl

theorem wakeup_ok_iff [DecidableEq T] [DecidableEq K] [DecidableEq B] {ts1 ts' : Sys T L K B}
    {q : Qnum} {n : ℕ} {o : Option T}
    (h : (ts.ts k).inheritor = none ∧ ts1 = ts ∨ ∃ i, (ts.ts k).inheritor = some i ∧ ts1 = ts.piWaive k i) :
    ts.wakeup env k q n o = .ok ts' ↔ Sys.wakeLoop env k q n o ts1 = .ok (none, ts') := by
  have hloop : ts.wakeup env k q n o = .ok ts' ↔ ∃ o' ts2,
      Sys.wakeLoop env k q n o ts1 = .ok (o', ts2) ∧ o' = none ∧ ts2 = ts' := by
    unfold Sys.wakeup
    rcases h with ⟨hi, rfl⟩ | ⟨i, hi, rfl⟩ <;> rw [hi] <;> dsimp only <;> split <;> simp_all
  simpa using hloop

variable [DecidableEq L]

theorem Lock.Ok.setLock {lock : L → Lock T} (h : ∀ l, (lock l).Ok) (hlk : lk.Ok) (l l' : L) :
    (update lock l lk l').Ok := by
  rw [update_apply]
  split
  · exact hlk
  · exact h l'

theorem Lock.Awaited.setLock {lock : L → Lock T} {ts' : Sys T L K B} (h : ∀ l, (lock l).Awaited ts l)
    (hself : lk.Awaited ts' l) (hother : ∀ l' q, l' ≠ l → Sleeps ts l' q → Sleeps ts' l' q) (l' : L) :
    (update lock l lk l').Awaited ts' l' := by
  by_cases hl : l' = l
  · subst hl
    rwa [update_self]
  · rw [update_of_ne hl]
    exact ⟨fun hw => ((h l').waiters hw).imp fun q => hother l' q hl,
      fun hw => hother l' _ hl ((h l').wanted hw)⟩

theorem rwOwner_update (lock : L → Lock T) (l : L) (lk : Lock T) :
    RwSys.rwOwner (update lock l lk) = update (RwSys.rwOwner lock) l lk.owner := by
  funext l'
  by_cases hl : l' = l
  · subst hl
    simp [RwSys.rwOwner]
  · simp [RwSys.rwOwner, hl]

theorem rwOwner_update_same {lock : L → Lock T} (h : lk.owner = (lock l).owner) :
    RwSys.rwOwner (update lock l lk) = RwSys.rwOwner lock := by
  rw [rwOwner_update, h]
  exact update_eq_self l _

/-! ## The invariant -/

variable [DecidableEq T] [DecidableEq K] [DecidableEq B]

section

variable {ts' : Sys T L K B} {q r : Qnum} {n : ℕ} (h : Left ts ts' k q n) (hobj : (ts.ts k).sobj = some l)
include h hobj

theorem Left.sleeps {u : T} (ho : Own env things ts') (hu : u ∈ (ts'.ts k).sleepq r) : Sleeps ts' l r := by
  have hsq := (ho.queue u k r).1 hu
  obtain ⟨-, ha, hw⟩ := ho.asleep u k r hsq
  exact ⟨u, k, hsq, hw.trans ((h.active k ha).2.trans hobj)⟩

theorem Left.sleeps_elsewhere {l' : L} (ho : Own env things ts) (hl : l' ≠ l) (hs : Sleeps ts l' r) :
    Sleeps ts' l' r := by
  obtain ⟨u, j, hsq, hw⟩ := hs
  obtain ⟨hj, -, hsobj⟩ := ho.asleep u j r hsq
  have hsame := h.elsewhere u fun e => by
    rw [← hj, e, hobj, hw] at hsobj
    exact hl (some.inj hsobj)
  exact ⟨u, j, by rw [hsame]; exact ⟨hsq, hw⟩⟩

theorem Left.sleeps_of_lt (ho : Own env things ts) (ho' : Own env things ts') (hk : ts.Active k)
    (hn : n < (ts.ts k).waiters) : ∃ r, Sleeps ts' l r := by
  have hcount := (ho.count k hk).1
  by_cases hq : n < ((ts.ts k).sleepq q).length
  · obtain ⟨u, hu⟩ := exists_mem_of_length_pos (l := (ts'.ts k).sleepq q)
      (by rw [h.self, length_drop]; omega)
    exact ⟨q, h.sleeps hobj ho' hu⟩
  · obtain ⟨r, hr, hpos⟩ : ∃ r, r ≠ q ∧ 0 < ((ts.ts k).sleepq r).length := by
      cases q with
      | writer => exact ⟨.reader, by simp, by omega⟩
      | reader => exact ⟨.writer, by simp, by omega⟩
    rw [← h.other r hr] at hpos
    obtain ⟨u, hu⟩ := exists_mem_of_length_pos hpos
    exact ⟨r, h.sleeps hobj ho' hu⟩

end

theorem Own.lookup_of_sleeps {q : Qnum} (ho : Own env things ts) (hs : Sleeps ts l q) :
    ∃ k, ts.lookup env l = some k := by
  obtain ⟨u, j, hsq, hw⟩ := hs
  obtain ⟨-, ⟨b, hb⟩, hobj⟩ := ho.asleep u j q hsq
  obtain ⟨o, ho', rfl⟩ := ho.sobj b j hb
  cases (hw.symm.trans hobj).trans ho'
  exact Option.isSome_iff_exists.1 (find?_isSome.2 ⟨j, hb, decide_eq_true ho'⟩)

/-- The turnstiles agree with the locks. -/
structure RwInv (env : Env T L B) (things : List K) (base : T → ℕ) (s : RwSys T L K B) : Prop where
  willing : Willing env things base (RwSys.rwOwner s.lock) s.ts none
  waiters : ∀ t l, (s.ts.thread t).wchan = some l → (s.lock l).waiters = true
  locks : ∀ l, (s.lock l).Ok
  acyclic : Acyclic (waitsFor (RwSys.rwOwner s.lock) s.ts)
  awaited : ∀ l, (s.lock l).Awaited s.ts l

theorem Willing.of_unused (h : Willing env things base owner ts none)
    (hl : ∀ t, (ts.thread t).wchan ≠ some l)
    (o : Option T) : Willing env things base (update owner l o) ts none := by
  refine ⟨h.good, h.prio, h.base, fun u l' o' hu hl' ho => ?_, fun j l' o' hj hobj hi => ?_⟩
  · have hne : l' ≠ l := fun e => hl u (e ▸ hl')
    rw [update_of_ne hne] at ho
    exact h.willed u l' o' hu hl' ho
  have hne : l' ≠ l := fun e => by
    obtain ⟨b, hb⟩ := hj
    obtain ⟨o1, h1, rfl⟩ := h.good.own.sobj b j hb
    obtain rfl : o1 = l' := Option.some.inj (h1.symm.trans hobj)
    obtain ⟨u, hu⟩ := (h.good.owned.present o1).1 ⟨j, hb, hobj⟩
    exact hl u (e ▸ hu)
  rw [update_of_ne hne]
  exact h.inheritor j l' o' hj hobj hi

section

variable (h : RwInv env things base s)
include h

theorem RwInv.setLock (hlk : lk.Ok)
    (h1 : Willing env things base (RwSys.rwOwner (update s.lock l lk)) ts none)
    (hwchan : ∀ u l', (ts.thread u).wchan = some l' → (s.ts.thread u).wchan = some l')
    (hwait : ∀ u, (ts.thread u).wchan = some l → lk.waiters = true)
    (hend : ∀ w, lk.owner = some w → (ts.thread w).wchan = none) (hself : lk.Awaited ts l)
    (hother : ∀ l' q, l' ≠ l → Sleeps s.ts l' q → Sleeps ts l' q) :
    RwInv env things base ⟨ts, update s.lock l lk⟩ := by
  refine ⟨h1, fun u l' hu => ?_, Lock.Ok.setLock h.locks hlk l, h.acyclic.of_ends fun u v huv => ?_,
    fun l' => ?_⟩
  · dsimp only at hu ⊢
    rw [update_apply]
    split
    · rename_i e
      exact hwait u (e ▸ hu)
    · exact h.waiters u l' (hwchan u l' hu)
  · obtain ⟨l', hu, hv⟩ := bind_eq_some_iff.1 huv
    rw [rwOwner_update] at hv
    by_cases hl : l' = l
    · rw [hl, update_self] at hv
      exact .inr (by rw [waitsFor, hend v hv]; rfl)
    · rw [update_of_ne hl] at hv
      exact .inl (by rw [waitsFor, hwchan u l' hu]; exact hv)
  · exact Lock.Awaited.setLock h.awaited hself hother l'

/-! ## `rw_enter_sleep` -/

theorem RwInv.enter (hrun : (s.ts.thread t).wchan = none) (hb : (s.lock l).busy rw = false) :
    RwInv env things base { s with lock := update s.lock l ((s.lock l).enter t rw) } := by
  refine h.setLock ((h.locks l).enter hb t) ?_ (fun _ _ hu => hu) (fun u hu => ?_) (fun w hw => ?_)
    (by cases rw <;> exact ⟨(h.awaited l).waiters, (h.awaited l).wanted⟩) fun _ _ _ hs => hs
  · cases rw with
    | reader =>
      rw [rwOwner_update_same (show ((s.lock l).enter t .reader).owner = (s.lock l).owner from rfl)]
      exact h.willing
    | writer =>
      -- a lock that is free for a writer has no waiters
      obtain ⟨hnone, hcount⟩ := by simpa [Lock.busy] using hb
      rw [rwOwner_update]
      refine h.willing.of_unused (fun u hu => ?_) _
      rcases (h.locks l).held (h.waiters u l hu) with h' | h'
      · exact h' hnone
      · exact h' hcount
  · cases rw <;> exact h.waiters u l hu
  · cases rw with
    | reader =>
      have hnone : (s.lock l).owner = none := by simpa [Lock.busy] using (Bool.or_eq_false_iff.1 hb).1
      exact absurd (hnone.symm.trans hw) (by simp)
    | writer => rwa [← Option.some.inj hw]

theorem RwInv.block (henv : env.Fixed) (hrun : (s.ts.thread t).wchan = none)
    (hb : (s.lock l).busy rw = true)
    (heq : s.ts.block env (RwSys.rwOwner (update s.lock l ((s.lock l).wait rw))) fuel t
      (qnum rw) l = .ok ts) :
    RwInv env things base ⟨ts, update s.lock l ((s.lock l).wait rw)⟩ := by
  have howner : RwSys.rwOwner (update s.lock l ((s.lock l).wait rw)) = RwSys.rwOwner s.lock :=
    rwOwner_update_same (by cases rw <;> rfl)
  rw [howner] at heq
  unfold Sys.block at heq
  split at heq
  · simp at heq
  have hw := h.willing.enqueue henv hrun l (qnum rw)
  obtain ⟨h1, hf⟩ := hw.will heq
  obtain ⟨hself, hother⟩ := enqueue_thread env s.ts t l (qnum rw)
  have hsleeps : ∀ l' q, Sleeps s.ts l' q → Sleeps ts l' q := by
    rintro l' q ⟨u, j, hsq, hl'⟩
    have hut : u ≠ t := fun e => by simp [← e, hl'] at hrun
    exact Sleeps.frame ⟨u, j, by rw [hother u hut]; exact ⟨hsq, hl'⟩⟩ hf
  have hnew : Sleeps ts l (qnum rw) := by
    obtain ⟨k, -, -, -, hth, -⟩ := enqueue_change env s.ts t l (qnum rw)
    exact Sleeps.frame ⟨t, k, by rw [hth]; simp [sleeper]⟩ hf
  refine ⟨by rw [howner]; exact h1, fun u l' hu => ?_, Lock.Ok.setLock h.locks ((h.locks l).wait hb) l, ?_,
    Lock.Awaited.setLock h.awaited ⟨fun _ => ⟨_, hnew⟩, fun hw => ?_⟩ fun l' q _ => hsleeps l' q⟩
  · dsimp only at hu ⊢
    rw [hf.wchan] at hu
    rw [update_apply]
    split
    · cases rw <;> rfl
    rename_i hne
    by_cases hut : u = t
    · rw [hut, hself] at hu
      exact absurd (Option.some.inj hu).symm hne
    · rw [hother u hut] at hu
      exact h.waiters u l' hu
  · rw [howner, waitsFor_frame hf]
    refine h.acyclic.of_extend (fun u hu => ?_) fun hself => hw.good.will_ne heq hself rfl
    unfold waitsFor
    rw [hother u hu]
  · cases rw with
    | reader => exact hsleeps l _ ((h.awaited l).wanted hw)
    | writer => exact hnew

theorem RwInv.rwEnterSleep (henv : env.Fixed) (hrun : (s.ts.thread t).wchan = none)
    (heq : RwSys.rwEnterSleep env fuel s t l rw = .ok s') : RwInv env things base s' := by
  unfold RwSys.rwEnterSleep at heq
  split at heq
  · rename_i hb
    split at heq
    · simp at heq
    dsimp only at heq
    split at heq
    · simp at heq
    · rename_i ts hts
      rw [← Except.ok.inj heq]
      exact h.block henv hrun hb hts
  · rename_i hb
    rw [← Except.ok.inj heq]
    exact h.enter hrun (by simpa using hb)

theorem RwInv.rwEnterSleep_fuel [Fintype T] (hrun : (s.ts.thread t).wchan = none) :
    RwSys.rwEnterSleep env (Fintype.card T + 1) s t l rw ≠ .error .fuel := by
  have howner : RwSys.rwOwner (update s.lock l ((s.lock l).wait rw)) = RwSys.rwOwner s.lock :=
    rwOwner_update_same (by cases rw <;> rfl)
  have hgood : Good env things (enqueue env s.ts t l (qnum rw)) :=
    ⟨h.willing.good.own.enqueue hrun l _, h.willing.good.inh.enqueue env t l _⟩
  have hblock : s.ts.block env (RwSys.rwOwner s.lock) (Fintype.card T + 1) t (qnum rw) l ≠
    .error .fuel := by
    unfold Sys.block
    split
    · simp
    unfold Sys.will
    split
    · simp
    rename_i o ho
    split
    · simp
    rename_i hne
    obtain ⟨l', hl', -⟩ := bind_eq_some_iff.1 ho
    obtain ⟨-, -, hk, -⟩ := hgood.own.of_wchan hl'
    refine (hgood.piInherit hk o _).will_fuel h.acyclic (fun u hu => ?_) hne (h.acyclic.rank_lt_card o)
    rw [waitsFor_frame (hgood.own.piInherit_frame _ o _), waitsFor,
      (enqueue_thread env s.ts t l (qnum rw)).2 u hu, waitsFor]
  unfold RwSys.rwEnterSleep
  split
  · split
    · simp
    dsimp only
    rw [howner]
    split
    · rename_i e he
      rintro ⟨⟩
      exact hblock he
    · simp
  · simp

/-! ## `rw_exit_wakeup` -/

theorem RwInv.exit (hl : (s.lock l).exit.last = false) :
    RwInv env things base { s with lock := update s.lock l (s.lock l).exit } := by
  obtain ⟨hwait, hwant, -⟩ := (s.lock l).exit_bits
  refine h.setLock ((h.locks l).exit hl) ?_ (fun _ _ hu => hu) (fun u hu => ?_) (fun w hw => ?_)
    ⟨fun hw => (h.awaited l).waiters (hwait ▸ hw), fun hw => (h.awaited l).wanted (hwant ▸ hw)⟩
    fun _ _ _ hs => hs
  · cases ho : (s.lock l).owner with
    | none =>
      rw [rwOwner_update_same (by simp [Lock.exit, ho])]
      exact h.willing
    | some o =>
      -- a writer that leaves a lock that has waiters hands it off
      rw [rwOwner_update]
      refine h.willing.of_unused (fun u hu => ?_) _
      have hc := (h.locks l).exclusive (by simp [ho])
      have hw := h.waiters u l hu
      simp [Lock.last, Lock.exit, ho, hc, hw] at hl
  · rw [(s.lock l).exit_bits.1]
    exact h.waiters u l hu
  · rw [(s.lock l).exit_bits.2.2] at hw
    simp at hw

theorem RwInv.waive (hk : s.ts.Active k) (hobj : (s.ts.ts k).sobj = some l)
    (hrun : ∀ o, (s.lock l).owner = some o → (s.ts.thread o).wchan = none) :
    ∃ ts1, Willing env things base (update (RwSys.rwOwner s.lock) l none) ts1 none ∧ Frame s.ts ts1 ∧
      (ts1.ts k).inheritor = none ∧ (∀ q, (ts1.ts k).sleepq q = (s.ts.ts k).sleepq q) ∧
      ∀ q n o ts, s.ts.wakeup env k q n o = .ok ts ↔ Sys.wakeLoop env k q n o ts1 = .ok (none, ts) := by
  cases hi : (s.ts.ts k).inheritor with
  | none =>
    refine ⟨s.ts, h.willing.release fun j hj hobj' => ?_, Frame.refl _, hi, fun _ => rfl,
      fun q n o ts => wakeup_ok_iff (.inl ⟨hi, rfl⟩)⟩
    rw [h.willing.good.own.uniq j k l hj hk hobj' hobj, hi]
  | some i =>
    have ho := h.willing.inheritor k l i hk hobj hi
    exact ⟨s.ts.piWaive k i, h.willing.waive hk hobj hi (hrun i ho),
      h.willing.good.own.piWaive_frame k i, (h.willing.good.waived h.willing.prio k i).self,
      piWaive_sleepq k (h.willing.good.own.sleepq_none (hrun i ho)) k,
      fun q n o ts => wakeup_ok_iff (.inr ⟨i, hi, rfl⟩)⟩

section

variable (henv : env.Fixed) (hk : s.ts.Active k) (hobj : (s.ts.ts k).sobj = some l)
  (hrun : ∀ o, (s.lock l).owner = some o → (s.ts.thread o).wchan = none)
include henv hk hobj hrun

theorem RwInv.wakeReaders {n : ℕ} (hn : 0 < n) (hle : n ≤ ((s.ts.ts k).sleepq .reader).length)
    (hall : (s.ts.ts k).sleepq .writer = [] → n = ((s.ts.ts k).sleepq .reader).length) :
    ∃ ts, s.ts.wakeup env k .reader n none = .ok ts ∧ RwInv env things base ⟨ts, update s.lock l
      ⟨none, n, (s.ts.ts k).sleepq .writer ≠ [], (s.ts.ts k).waiters > n⟩⟩ := by
  obtain ⟨ts1, hw, hf, hinh, hqueue, hwake⟩ := h.waive hk hobj hrun
  have hle1 : n ≤ ((ts1.ts k).sleepq .reader).length := by rwa [hqueue]
  obtain ⟨ts, hloop⟩ := hw.wakeLoop_ok henv hinh hle1
  obtain ⟨hw', hleft⟩ := hw.wakeLoop henv hinh hloop
  have hk1 : ts1.Active k := (hf.active k).2 hk
  have hobj1 : (ts1.ts k).sobj = some l := (hf.sobj k).trans hobj
  have hcount := (h.willing.good.own.count k hk).1
  refine ⟨ts, (hwake _ _ _ _).2 hloop,
    h.setLock ⟨fun _ => .inr hn.ne', fun hwanted => ?_, fun ho => absurd rfl ho,
    fun _ hwait => ?_⟩ ?_ (fun u l' hu => ?_) (fun u hu => ?_) (fun w hw => absurd hw (by simp))
    ⟨fun hwait => ?_, fun hwanted => ?_⟩
    fun l' q hl hs => hleft.sleeps_elsewhere hobj1 hw.good.own hl (hs.frame hf)⟩
  · -- a writer is left
    have hpos := length_pos_of_ne_nil (of_decide_eq_true hwanted)
    exact decide_eq_true (by omega)
  · refine decide_eq_true fun hnil => ?_
    have hlt := of_decide_eq_true hwait
    rw [hnil, length_nil, Nat.zero_add] at hcount
    exact hlt.ne' (hcount.trans (hall hnil).symm)
  · rw [rwOwner_update]
    exact hw'
  · rw [← hf.wchan]
    exact hleft.wchan u l' hu
  · have hlt := (hleft.lt_waiters hw.good.own hw'.good.own hk1 hobj1 hle1 hu).2
    rw [hf.waiters] at hlt
    exact decide_eq_true hlt
  · exact hleft.sleeps_of_lt hobj1 hw.good.own hw'.good.own hk1
      (by rw [hf.waiters]; exact of_decide_eq_true hwait)
  · obtain ⟨u, hu⟩ := exists_mem_of_ne_nil _ (of_decide_eq_true hwanted)
    exact hleft.sleeps hobj1 hw'.good.own (u := u) (by rwa [hleft.other _ (by simp), hqueue])

theorem RwInv.wakeWriter {w : T} {link : List T} (hq : (s.ts.ts k).sleepq .writer = w :: link) :
    ∃ ts, s.ts.wakeup env k .writer 1 (some w) = .ok ts ∧
      RwInv env things base ⟨ts, update s.lock l ⟨some w, 0, link ≠ [], (s.ts.ts k).waiters > 1⟩⟩ := by
  obtain ⟨ts1, hw, hf, hinh, hqueue, hwake⟩ := h.waive hk hobj hrun
  have hus : (ts1.ts k).sleepq .writer = w :: link := by rw [hqueue, hq]
  have hk1 : ts1.Active k := (hf.active k).2 hk
  have hobj1 : (ts1.ts k).sobj = some l := (hf.sobj k).trans hobj
  have hsq : (ts1.thread w).sleepq = some (k, .writer) :=
    (hw.good.own.queue w k .writer).1 (by rw [hus]; exact mem_cons_self)
  have hleft : Left ts1 (ts1.dequeue env w) k .writer 1 := hw.good.own.dequeue_left hinh hus
  have hw' := hw.dequeue hsq hinh
  have hlt : ∀ v, ((ts1.dequeue env w).thread v).wchan = some l →
      ((ts1.dequeue env w).thread v).ts = k ∧ 1 < (ts1.ts k).waiters := fun v hv =>
    hleft.lt_waiters hw.good.own hw'.good.own hk1 hobj1 (by simp [hus]) hv
  have hwself : ((ts1.dequeue env w).thread w).wchan = none := by
    obtain ⟨⟨_, hself⟩, -⟩ := hw.good.own.dequeue_cases hsq hinh
    rw [hself]
  have hw'' := hw'.handoff hleft.inheritor (fun ha => (hleft.active k ha).2.trans hobj1) hwself
    fun v hv => (hlt v hv).1
  have hf' := hw'.good.own.piInherit_frame k w
    (max ((ts1.dequeue env w).firstPri k .writer) ((ts1.dequeue env w).firstPri k .reader))
  refine ⟨_, (hwake _ _ _ _).2 ?_,
    h.setLock ⟨fun _ => .inl (by simp), fun hwanted => ?_, fun _ => rfl, nofun⟩ ?_
    (fun v l' hv => ?_) (fun v hv => ?_) (fun v hv => ?_) ⟨fun hwait => ?_, fun hwanted => ?_⟩
    fun l' q hl hs => (hleft.sleeps_elsewhere hobj1 hw.good.own hl (hs.frame hf)).frame hf'⟩
  · unfold Sys.wakeLoop
    rw [hus]
    dsimp only
    rw [if_pos rfl, setThread_clWakeup henv]
    rfl
  · -- another writer is left
    have hpos := length_pos_of_ne_nil (of_decide_eq_true hwanted)
    have hcount := (h.willing.good.own.count k hk).1
    rw [hq, length_cons] at hcount
    exact decide_eq_true (by omega)
  · rw [rwOwner_update]
    exact hw''
  · rw [hf'.wchan] at hv
    rw [← hf.wchan]
    exact hleft.wchan v l' hv
  · rw [hf'.wchan] at hv
    have h1 := (hlt v hv).2
    rw [hf.waiters] at h1
    exact decide_eq_true h1
  · rwa [hf'.wchan, ← Option.some.inj hv]
  · obtain ⟨r, hs⟩ := hleft.sleeps_of_lt hobj1 hw.good.own hw'.good.own hk1
      (by rw [hf.waiters]; exact of_decide_eq_true hwait)
    exact ⟨r, hs.frame hf'⟩
  · obtain ⟨u, hu⟩ := exists_mem_of_ne_nil _ (of_decide_eq_true hwanted)
    exact (hleft.sleeps hobj1 hw'.good.own (u := u) (by rwa [hleft.self, hus])).frame hf'

/-- A hand-off goes through where someone waits: behind readers, a writer. -/
theorem RwInv.handoff (hheir : (s.lock l).owner = none → (s.ts.ts k).sleepq .writer ≠ []) :
    ∃ s', RwSys.handoff env s l k = .ok s' ∧ RwInv env things base s' := by
  unfold RwSys.handoff
  dsimp only
  split
  · rename_i hn
    obtain ⟨ts, hts, hinv⟩ := h.wakeReaders henv hk hobj hrun hn.2 (takeWhile_sublist _).length_le
      rwReadersToWake_of_nil
    exact ⟨_, by rw [hts], hinv⟩
  rename_i hn
  cases hq : (s.ts.ts k).sleepq .writer with
  | nil =>
    -- all readers would wake
    have hsome := Option.isSome_iff_ne_none.2 fun ho => hheir ho hq
    have hcount := h.willing.good.own.count k hk
    have hall := rwReadersToWake_of_nil hq
    rw [hq, length_nil] at hcount
    exact absurd ⟨hsome, by omega⟩ hn
  | cons w link =>
    obtain ⟨ts, hts, hinv⟩ := h.wakeWriter henv hk hobj hrun hq
    exact ⟨_, by dsimp only; rw [hts], hinv⟩

end

theorem RwInv.rwExitWakeup_ok (henv : env.Fixed) (hrun : (s.ts.thread t).wchan = none)
    (hheld : (s.lock l).HeldBy t) :
    ∃ s', RwSys.rwExitWakeup env s t l = .ok s' ∧ RwInv env things base s' := by
  unfold RwSys.rwExitWakeup
  rw [if_neg fun hn => ?_, if_neg fun hn => ?_]
  · cases hl : (s.lock l).exit.last with
    | false => exact ⟨_, rfl, h.exit hl⟩
    | true =>
      have hwait : (s.lock l).waiters = true := by
        rw [← (s.lock l).exit_bits.1]
        exact (Bool.and_eq_true_iff.1 hl).2
      obtain ⟨q, hs⟩ := (h.awaited l).waiters hwait
      obtain ⟨k, hk⟩ := h.willing.good.own.lookup_of_sleeps hs
      obtain ⟨hmem, hobj⟩ := lookup_some hk
      have hact : s.ts.Active k := ⟨_, hmem⟩
      rw [if_pos rfl, hk]
      refine h.handoff henv hact hobj (fun o ho => ?_) fun hnone => ?_
      · rcases hheld with hheld | ⟨hheld, -⟩ <;> rw [ho] at hheld <;> cases hheld
        exact hrun
      · obtain ⟨u, j, hsq, hw⟩ := (h.awaited l).wanted ((h.locks l).shared hnone hwait)
        obtain ⟨-, hj, hobj'⟩ := h.willing.good.own.asleep u j _ hsq
        rw [← h.willing.good.own.uniq j k l hj hact (hobj'.symm.trans hw) hobj]
        exact ne_nil_of_mem ((h.willing.good.own.queue u j _).2 hsq)
  · obtain ⟨h1, h2⟩ := hn
    rcases hheld with hheld | ⟨-, hheld⟩
    · simp [hheld] at h1
    · exact hheld h2
  · obtain ⟨h1, h2⟩ := hn
    rcases hheld with hheld | ⟨hheld, -⟩
    · exact h2 hheld
    · simp [hheld] at h1

theorem RwInv.rwExitWakeup (henv : env.Fixed) (hrun : (s.ts.thread t).wchan = none)
    (heq : RwSys.rwExitWakeup env s t l = .ok s') : RwInv env things base s' := by
  have hheld : (s.lock l).HeldBy t := by
    unfold RwSys.rwExitWakeup at heq
    split at heq
    · simp at heq
    rename_i hself
    split at heq
    · simp at heq
    rename_i hzero
    cases ho : (s.lock l).owner with
    | none => exact .inr ⟨ho, by simpa [ho] using hzero⟩
    | some o => exact .inl (by simpa [ho] using hself)
  obtain ⟨s1, h1, hinv⟩ := h.rwExitWakeup_ok henv hrun hheld
  rwa [← Except.ok.inj (h1.symm.trans heq)]

end

/-! ## Runs -/

/-- A running thread enters a lock, or leaves one. -/
inductive RwStep (env : Env T L B) : RwSys T L K B → RwSys T L K B → Prop
  | enter {s s' : RwSys T L K B} (fuel : ℕ) (t : T) (l : L) (rw : Krw) :
      (s.ts.thread t).wchan = none → RwSys.rwEnterSleep env fuel s t l rw = .ok s' → RwStep env s s'
  | exit {s s' : RwSys T L K B} (t : T) (l : L) : (s.ts.thread t).wchan = none →
      RwSys.rwExitWakeup env s t l = .ok s' → RwStep env s s'

/-- All threads run at their own priorities, and nobody holds a lock. -/
structure RwStart (base : T → ℕ) (s : RwSys T L K B) : Prop where
  ts : Start s.ts
  pri : ∀ t, (s.ts.thread t).pri = base t ∧ (s.ts.thread t).epri = 0
  lock : ∀ l, s.lock l = Lock.unheld

inductive RwReachable (env : Env T L B) (base : T → ℕ) : RwSys T L K B → Prop
  | start {s : RwSys T L K B} : RwStart base s → RwReachable env base s
  | step {s s' : RwSys T L K B} : RwReachable env base s → RwStep env s s' → RwReachable env base s'

theorem RwInv.step (h : RwInv env things base s) (henv : env.Fixed) (hs : RwStep env s s') :
    RwInv env things base s' := by
  cases hs with
  | enter fuel t l rw hrun heq => exact h.rwEnterSleep henv hrun heq
  | exit t l hrun heq => exact h.rwExitWakeup henv hrun heq

theorem rwInv_start [Fintype T] (h : RwStart base s) (env : Env T L B) :
    ∃ things, RwInv env things base s := by
  have hprio : Prio s.ts := by
    refine ⟨fun k q => ?_, fun t => ?_⟩
    · rw [(h.ts.ts k).2.2.2 q]
      exact Pairwise.nil
    · rw [dispPrio_eq_max, (h.pri t).2, inherited, (h.ts.thread t).2.2]
      rfl
  refine ⟨_, ⟨good_start h.ts env, hprio, fun t => (h.pri t).1, fun t l o _ hl => ?_,
    fun k l o _ _ hi => ?_⟩, fun t l hl => ?_, fun l => ?_, ?_, fun l => ?_⟩
  · rw [(h.ts.thread t).1] at hl
    simp at hl
  · rw [(h.ts.ts k).2.2.1] at hi
    simp at hi
  · rw [(h.ts.thread t).1] at hl
    simp at hl
  · rw [h.lock]
    exact ⟨fun hw => absurd hw (by simp [Lock.unheld]), fun hw => hw, fun _ => rfl, fun _ hw => hw⟩
  · intro t ht
    obtain ⟨u, hu⟩ := points_of_transGen ht
    rw [Points, waitsFor, (h.ts.thread t).1] at hu
    simp at hu
  · rw [h.lock]
    constructor <;> simp [Lock.unheld]

theorem rwInv_of_reachable [Fintype T] (henv : env.Fixed) (h : RwReachable env base s) :
    ∃ things, RwInv env things base s := by
  induction h with
  | start h => exact rwInv_start h env
  | step _ hs ih =>
    obtain ⟨things, h⟩ := ih
    exact ⟨things, h.step henv hs⟩

/-- In every state of a run `rw_enter` and `rw_exit` act on the word of a lock as on the lock, and who
holds a lock can leave it: there is a turnstile for the waiting bit, and the next owner is on it. -/
theorem rwlock_words [Fintype T] {th : Threads T} (henv : env.Fixed) (h : RwReachable env base s)
    (hrun : (s.ts.thread t).wchan = none) (hf : ((s.lock l).fields th).Fits) :
    (∀ fuel rw s', RwSys.rwEnterSleep env fuel s t l rw = .ok s' → s.EnterWord th s' t l rw) ∧
    ((s.lock l).HeldBy t →
      ∃ s', RwSys.rwExitWakeup env s t l = .ok s' ∧ RwSys.ExitWord th env s s' t l) := by
  obtain ⟨things, hi⟩ := rwInv_of_reachable henv h
  refine ⟨fun fuel rw s' heq => RwSys.word_rwEnterSleep hf heq, fun hheld => ?_⟩
  obtain ⟨s', heq, -⟩ := hi.rwExitWakeup_ok henv hrun hheld
  exact ⟨s', heq, RwSys.word_rwExitWakeup hf (hi.locks l).exclusive heq⟩

/-! ## Priorities -/

theorem RwInv.le_owner (h : RwInv env things base s) {w o : T}
    (hwo : Points (waitsFor (RwSys.rwOwner s.lock) s.ts) w o) :
    s.ts.dispPrio w ≤ s.ts.dispPrio o := by
  obtain ⟨l, hl, ho⟩ := bind_eq_some_iff.1 hwo
  rw [h.willing.prio.disp o]
  rcases h.willing.willed w l o (by simp) hl ho with hw | ⟨hi, hw⟩
  · exact hw.trans (Nat.le_max_left _ _)
  · exact (hw.trans (le_inherited ((h.willing.good.inh.mem o _).2 hi))).trans (Nat.le_max_right _ _)

/-- Nobody is blocked on a lock of the thread. -/
def Unwanted (s : RwSys T L K B) (t : T) : Prop :=
  ∀ l u, RwSys.rwOwner s.lock l = some t → (s.ts.thread u).wchan ≠ some l

theorem RwInv.prioinv_nil (h : RwInv env things base s) (ht : Unwanted s t) :
    (s.ts.thread t).prioinv = [] := by
  rw [eq_nil_iff_forall_not_mem]
  intro k hk
  have hi := (h.willing.good.inh.mem t k).1 hk
  obtain ⟨b, hb⟩ := h.willing.good.inh.active k t hi
  obtain ⟨l, hobj, rfl⟩ := h.willing.good.own.sobj b k hb
  obtain ⟨u, hu⟩ := (h.willing.good.owned.present l).1 ⟨k, hb, hobj⟩
  exact ht l u (h.willing.inheritor k l t ⟨_, hb⟩ hobj hi) hu

structure Prioritized (base : T → ℕ) (s : RwSys T L K B) : Prop where
  /-- A writer runs at the priority of all who are blocked behind it. -/
  complete : ∀ w o, Relation.TransGen (Points (waitsFor (RwSys.rwOwner s.lock) s.ts)) w o →
    s.ts.dispPrio w ≤ s.ts.dispPrio o
  disp : ∀ t, s.ts.dispPrio t = max (base t) (inherited s.ts t)
  temporary : ∀ t, Unwanted s t → s.ts.dispPrio t = base t

theorem RwInv.prioritized (h : RwInv env things base s) : Prioritized base s where
  complete w o hwo := by
    induction hwo with
    | single hwo => exact h.le_owner hwo
    | tail _ hwo ih => exact ih.trans (h.le_owner hwo)
  disp t := by rw [h.willing.prio.disp, h.willing.base]
  temporary t ht := by
    rw [h.willing.prio.disp, h.willing.base, inherited, h.prioinv_nil ht]
    exact Nat.max_zero _

/-- Priorities are inherited along every chain, and only while someone waits; and the walk along a
chain ends. -/
theorem rwlock_inheritance [Fintype T] (henv : env.Fixed) (h : RwReachable env base s) :
    Prioritized base s ∧ ∀ t l rw, (s.ts.thread t).wchan = none →
      RwSys.rwEnterSleep env (Fintype.card T + 1) s t l rw ≠ .error .fuel := by
  obtain ⟨things, hi⟩ := rwInv_of_reachable henv h
  exact ⟨hi.prioritized, fun _ _ _ hrun => hi.rwEnterSleep_fuel hrun⟩

def twoLocks : Env (Fin 3) (Fin 2) Unit := ⟨fun _ => (), fun _ => false, fun _ pri => pri, fun _ pri => pri⟩

def threeRunning : RwSys (Fin 3) (Fin 2) (Fin 3) Unit where
  ts := ⟨fun _ => ⟨none, 0, 0, none, [], fun _ => []⟩, fun t => ⟨t, t, 0, false, [], none, none⟩,
    fun _ => []⟩
  lock _ := Lock.unheld

/-- The state after a thread entered a lock. -/
def entered (s : RwSys (Fin 3) (Fin 2) (Fin 3) Unit) (t : Fin 3) (l : Fin 2) :
    RwSys (Fin 3) (Fin 2) (Fin 3) Unit :=
  match RwSys.rwEnterSleep twoLocks 4 s t l .writer with
  | .ok s' => s'
  | .error _ => s

/-- The first two threads take a lock each, and the second asks for the lock of the first; then the
third asks for the lock of the second. -/
def twoBlocked (l m : Fin 2) : RwSys (Fin 3) (Fin 2) (Fin 3) Unit :=
  entered (entered (entered (entered threeRunning 0 l) 1 m) 1 l) 2 m

theorem rwlock_inheritance_three :
    (twoBlocked 0 1).ts.dispPrio 0 = 2 ∧ Prioritized (fun t : Fin 3 => t.val) (twoBlocked 0 1) := by
  have hstart : RwReachable twoLocks (fun t : Fin 3 => t.val) threeRunning :=
    .start ⟨⟨fun _ => ⟨rfl, rfl, rfl⟩, fun _ _ h => h, fun _ => ⟨rfl, rfl, rfl, fun _ => rfl⟩,
      fun _ => rfl⟩, fun _ => ⟨rfl, rfl⟩, fun _ => rfl⟩
  have hheld : RwReachable twoLocks (fun t : Fin 3 => t.val) (entered (entered threeRunning 0 0) 1 1) :=
    .step (.step hstart (.enter 4 0 0 .writer rfl rfl)) (.enter 4 1 1 .writer rfl rfl)
  have hblocked : RwReachable twoLocks (fun t : Fin 3 => t.val) (twoBlocked 0 1) :=
    .step (.step hheld (.enter 4 1 0 .writer rfl rfl)) (.enter 4 2 1 .writer rfl rfl)
  exact ⟨by decide +kernel, (rwlock_inheritance ⟨fun _ _ => rfl, fun _ _ => rfl⟩ hblocked).1⟩

end Osol.Turnstile
