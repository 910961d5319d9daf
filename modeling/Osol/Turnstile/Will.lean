import Osol.Turnstile.Rwlock

/-!
# Priorities along blocking chains

A thread that is blocked behind a writer has willed it its priority: the writer's own priority is as
high, or the writer inherits as much from the turnstile. On the walk along a blocking chain that is
so for all threads but the one the walk is at.
-/

namespace Osol.Turnstile

open Lib Function List Option

variable {T L K B : Type} {env : Env T L B} {things : List K} {base : T → ℕ} {owner : L → Option T}
  {s s' : Sys T L K B} {t : T} {k : K} {l : L} {q : Qnum}

/-- The thread has willed its priority to the owner. -/
def Willed (s : Sys T L K B) (t o : T) : Prop :=
  s.dispPrio t ≤ (s.thread o).pri ∨
    (s.ts (s.thread t).ts).inheritor = some o ∧ s.dispPrio t ≤ (s.ts (s.thread t).ts).epri

def waitsFor (owner : L → Option T) (s : Sys T L K B) (t : T) : Option T := (s.thread t).wchan.bind owner

theorem waitsFor_frame (h : Frame s s') (owner : L → Option T) : waitsFor owner s' = waitsFor owner s := by
  funext t
  rw [waitsFor, h.wchan, waitsFor]

/-- What is left after threads of a queue woke. -/
structure Left (s s' : Sys T L K B) (k : K) (q : Qnum) (n : ℕ) : Prop where
  self : (s'.ts k).sleepq q = ((s.ts k).sleepq q).drop n
  other : ∀ r, r ≠ q → (s'.ts k).sleepq r = (s.ts k).sleepq r
  wchan : ∀ u l, (s'.thread u).wchan = some l → (s.thread u).wchan = some l
  active : ∀ j, s'.Active j → s.Active j ∧ (s'.ts j).sobj = (s.ts j).sobj
  inheritor : (s'.ts k).inheritor = none
  elsewhere : ∀ u, (s.thread u).ts ≠ k → s'.thread u = s.thread u

variable {n : ℕ}

theorem Left.trans {s'' : Sys T L K B} {m : ℕ} (h : Left s s' k q n) (h' : Left s' s'' k q m) :
    Left s s'' k q (n + m) := by
  refine ⟨?_, fun r hr => (h'.other r hr).trans (h.other r hr),
    fun u l hl => h.wchan u l (h'.wchan u l hl), fun j hj => ?_, h'.inheritor, fun u hu => ?_⟩
  · rw [h'.self, h.self, drop_drop]
  · obtain ⟨h1, h2⟩ := h'.active j hj
    obtain ⟨h3, h4⟩ := h.active j h1
    exact ⟨h3, h2.trans h4⟩
  · have hsame := h.elsewhere u hu
    rw [h'.elsewhere u (by rwa [hsame]), hsame]

variable [DecidableEq T] [DecidableEq L] [DecidableEq K] [DecidableEq B]

/-- All threads but one have willed their priorities, and nobody inherits but the owners. -/
structure Willing (env : Env T L B) (things : List K) (base : T → ℕ) (owner : L → Option T)
    (s : Sys T L K B) (cur : Option T) : Prop where
  good : Good env things s
  prio : Prio s
  base : ∀ t, (s.thread t).pri = base t
  willed : ∀ t l o, cur ≠ some t → (s.thread t).wchan = some l → owner l = some o → Willed s t o
  inheritor : ∀ k l o, s.Active k → (s.ts k).sobj = some l → (s.ts k).inheritor = some o → owner l = some o

/-! ## The walk -/

theorem Willing.inherit (h : Willing env things base owner s (some t)) {o : T}
    (hl : (s.thread t).wchan = some l)
    (ho : owner l = some o) :
      Willing env things base owner (s.piInherit (s.thread t).ts o (s.dispPrio t)) (some o) := by
  obtain ⟨-, -, hk, hobj⟩ := h.good.own.of_wchan hl
  have hinh : (s.ts (s.thread t).ts).inheritor = none ∨ (s.ts (s.thread t).ts).inheritor = some o := by
    cases hi : (s.ts (s.thread t).ts).inheritor with
    | none => exact .inl rfl
    | some i =>
      have := h.inheritor _ l i hk hobj hi
      rw [ho] at this
      exact .inr this.symm
  have hr := h.good.raised h.prio hinh (s.dispPrio t)
  have hf := h.good.own.piInherit_frame (s.thread t).ts o (s.dispPrio t)
  refine ⟨h.good.piInherit hk o _, hr.prio, fun u => (hr.pri u).trans (h.base u),
    fun u l' o' hu hl' ho' => ?_, fun j l' o' hj hobj' hj' => ?_⟩
  · have huo : u ≠ o := fun e => hu (e ▸ rfl)
    rw [hf.wchan] at hl'
    unfold Willed
    rw [hr.other u huo, hr.pri, hf.ts]
    by_cases hut : u = t
    · subst hut
      obtain rfl : l = l' := some.inj (hl.symm.trans hl')
      obtain rfl : o = o' := some.inj (ho.symm.trans ho')
      exact hr.willed
    rcases h.willed u l' o' (fun e => hut (some.inj e).symm) hl' ho' with hw | ⟨hw1, hw2⟩
    · exact .inl hw
    refine .inr ?_
    by_cases hts : (s.thread u).ts = (s.thread t).ts
    · -- both wait for the same lock
      rw [hts] at hw1 hw2 ⊢
      have heq : o' = o := by
        rcases hinh with hi | hi
        · rw [hi] at hw1
          simp at hw1
        · rw [hi] at hw1
          exact (some.inj hw1).symm
      subst heq
      obtain ⟨h1, h2⟩ := hr.mono hw1
      exact ⟨h1, hw2.trans h2⟩
    · obtain ⟨h1, h2⟩ := hr.ts _ hts
      rw [h1, h2]
      exact ⟨hw1, hw2⟩
  · rw [hf.active] at hj
    rw [hf.sobj] at hobj'
    by_cases hjk : j = (s.thread t).ts
    · subst hjk
      obtain rfl : l' = l := some.inj (hobj'.symm.trans hobj)
      rcases hr.inheritor with hn | hs
      · rw [hn] at hj'
        simp at hj'
      · rw [ho, ← hs, hj']
    · rw [(hr.ts j hjk).1] at hj'
      exact h.inheritor j l' o' hj hobj' hj'

theorem Willing.arrive (h : Willing env things base owner s (some t))
    (hnone : (s.thread t).wchan.bind owner = none) :
    Willing env things base owner s none := by
  refine ⟨h.good, h.prio, h.base, fun u l o _ hl ho => ?_, h.inheritor⟩
  refine h.willed u l o (fun e => ?_) hl ho
  rw [some.inj e, hl] at hnone
  exact absurd (ho.symm.trans hnone) (by simp)

variable {curthread : T} {fuel : ℕ}

theorem Willing.will (h : Willing env things base owner s (some t))
    (heq : Sys.will owner curthread fuel t s = .ok s') :
    Willing env things base owner s' none ∧ Frame s s' := by
  induction fuel generalizing s t with
  | zero => exact absurd heq (by simp [Sys.will])
  | succ n ih =>
    unfold Sys.will at heq
    split at heq
    · rename_i hn
      rw [← Except.ok.inj heq]
      exact ⟨h.arrive hn, Frame.refl s⟩
    rename_i o ho
    obtain ⟨l, hl, ho⟩ := Option.bind_eq_some_iff.1 ho
    split at heq
    · simp at heq
    · obtain ⟨h1, h2⟩ := ih (h.inherit hl ho) heq
      exact ⟨h1, (h.good.own.piInherit_frame _ o _).trans h2⟩

/-! ## How long the walk is -/

theorem Good.will_ne (h : Good env things s)
    (heq : Sys.will owner curthread fuel t s = .ok s') {u : T}
    (hu : Relation.TransGen (Points (waitsFor owner s)) t u) : u ≠ curthread := by
  induction fuel generalizing s t with
  | zero => exact absurd heq (by simp [Sys.will])
  | succ n ih =>
    unfold Sys.will at heq
    obtain ⟨o, hto, hou⟩ := Relation.TransGen.head'_iff.1 hu
    split at heq
    · rename_i hn
      rw [Points, waitsFor, hn] at hto
      simp at hto
    rename_i o' ho'
    obtain rfl : o' = o := some.inj (ho'.symm.trans hto)
    obtain ⟨l, hl, -⟩ := Option.bind_eq_some_iff.1 ho'
    obtain ⟨-, -, hk, -⟩ := h.own.of_wchan hl
    split at heq
    · simp at heq
    · rename_i hne
      rcases Relation.reflTransGen_iff_eq_or_transGen.1 hou with rfl | hou
      · exact hne
      · refine ih (h.piInherit hk o' _) heq ?_
        rwa [waitsFor_frame (h.own.piInherit_frame _ o' _)]

theorem Good.will_fuel [Fintype T] {next : T → Option T} (h : Good env things s)
    (hac : Acyclic next) (hnext : ∀ u, u ≠ curthread → waitsFor owner s u = next u) (ht : t ≠ curthread)
    (hf : rank next t < fuel) : Sys.will owner curthread fuel t s ≠ .error .fuel := by
  induction fuel generalizing s t with
  | zero => simp at hf
  | succ n ih =>
    unfold Sys.will
    split
    · simp
    rename_i o ho
    split
    · simp
    rename_i hne
    obtain ⟨l, hl, -⟩ := Option.bind_eq_some_iff.1 ho
    obtain ⟨-, -, hk, -⟩ := h.own.of_wchan hl
    have hto : next t = some o := (hnext t ht).symm.trans ho
    have hlt := hac.rank_lt hto
    refine ih (h.piInherit hk o _) (fun u hu => ?_) hne (by omega)
    rw [waitsFor_frame (h.own.piInherit_frame _ o _)]
    exact hnext u hu

/-! ## Blocking and waking -/

section

variable (h : Willing env things base owner s none)
include h

theorem Willing.enqueue (henv : env.Fixed) (hrun : (s.thread t).wchan = none)
    (l : L) (q : Qnum) : Willing env things base owner (enqueue env s t l q) (some t) := by
  have hsame := enqueue_samePrio henv s t l q
  have hth := (enqueue_thread env s t l q).2
  refine ⟨⟨h.good.own.enqueue hrun l q, h.good.inh.enqueue env t l q⟩, h.prio.enqueue henv t l q,
    fun u => (hsame.pri u).trans (h.base u), fun u l' o hu hl' ho => ?_, fun j l' o _ hobj hi => ?_⟩
  · have hut : u ≠ t := fun e => hu (e ▸ rfl)
    rw [hth u hut] at hl'
    unfold Willed
    rw [hsame.disp, hsame.pri, hth u hut, (hsame.ts _).1, (hsame.ts _).2]
    exact h.willed u l' o (by simp) hl' ho
  · rw [(hsame.ts j).1] at hi
    have ha := h.good.inh.active j o hi
    rw [h.good.own.enqueue_sobj hrun l q ha] at hobj
    exact h.inheritor j l' o ha hobj hi

theorem Willing.release
    (hinh : ∀ k, s.Active k → (s.ts k).sobj = some l → (s.ts k).inheritor = none) :
    Willing env things base (update owner l none) s none := by
  refine ⟨h.good, h.prio, h.base, fun u l' o hu hl' ho => ?_, fun j l' o hj hobj hi => ?_⟩
  · by_cases hl : l' = l
    · rw [hl, update_self] at ho
      simp at ho
    · rw [update_of_ne hl] at ho
      exact h.willed u l' o hu hl' ho
  · by_cases hl : l' = l
    · rw [hinh j hj (hl ▸ hobj)] at hi
      simp at hi
    · rw [update_of_ne hl]
      exact h.inheritor j l' o hj hobj hi

theorem Willing.waive (hk : s.Active k) (hobj : (s.ts k).sobj = some l) {i : T}
    (hi : (s.ts k).inheritor = some i) (hrun : (s.thread i).wchan = none) :
    Willing env things base (update owner l none) (s.piWaive k i) none := by
  have hw := h.good.waived h.prio k i
  have hf := h.good.own.piWaive_frame k i
  refine ⟨h.good.piWaive hi, hw.prio, fun u => (hw.pri u).trans (h.base u),
    fun u l' o hu hl' ho => ?_, fun j l' o hj hobj' hi' => ?_⟩
  · rw [hf.wchan] at hl'
    have hui : u ≠ i := fun e => by
      rw [e, hrun] at hl'
      simp at hl'
    by_cases hl : l' = l
    · rw [hl, update_self] at ho
      simp at ho
    rw [update_of_ne hl] at ho
    obtain ⟨-, -, -, hobj'⟩ := h.good.own.of_wchan hl'
    have hts : (s.thread u).ts ≠ k := fun e => by
      rw [e, hobj] at hobj'
      exact hl (some.inj hobj').symm
    unfold Willed
    rw [hw.other u hui, hw.pri, hf.ts, (hw.ts _ hts).1, (hw.ts _ hts).2]
    exact h.willed u l' o (by simp) hl' ho
  · rw [hf.active] at hj
    rw [hf.sobj] at hobj'
    by_cases hjk : j = k
    · rw [hjk, hw.self] at hi'
      simp at hi'
    · rw [(hw.ts j hjk).1] at hi'
      have hl : l' ≠ l := fun e => hjk (h.good.own.uniq j k l hj hk (e ▸ hobj') hobj)
      rw [update_of_ne hl]
      exact h.inheritor j l' o hj hobj' hi'

theorem Willing.dequeue (hsq : (s.thread t).sleepq = some (k, q))
    (hinh : (s.ts k).inheritor = none) : Willing env things base owner (s.dequeue env t) none := by
  obtain ⟨⟨ts, hself⟩, hother, hts, hact⟩ := h.good.own.dequeue_cases hsq hinh
  have hsame := h.good.own.dequeue_samePrio hsq hinh
  refine ⟨h.good.dequeue hsq, h.prio.dequeue h.good.own hsq hinh, fun u =>
    (hsame.pri u).trans (h.base u), fun u l' o hu hl' ho => ?_, fun j l' o hj hobj hi => ?_⟩
  · have hut : u ≠ t := fun e => by
      rw [e, hself] at hl'
      simp at hl'
    rw [hother u hut] at hl'
    unfold Willed
    rw [hsame.disp, hsame.pri, hother u hut, (hsame.ts _).1, (hsame.ts _).2]
    exact h.willed u l' o hu hl' ho
  · rw [(hts j).1] at hi
    rw [(hts j).2.2] at hobj
    exact h.inheritor j l' o (hact j hj) hobj hi

end

theorem Own.dequeue_left (ho : Own env things s) (hinh : (s.ts k).inheritor = none) {ws : List T}
    (hq : (s.ts k).sleepq q = t :: ws) : Left s (s.dequeue env t) k q 1 := by
  have hsq : (s.thread t).sleepq = some (k, q) := (ho.queue t k q).1 (by rw [hq]; exact mem_cons_self)
  obtain ⟨⟨ts, hself⟩, hother, hts, hact⟩ := ho.dequeue_cases hsq hinh
  refine ⟨?_, fun r hr => ?_, fun u l hl => ?_, fun j hj => ⟨hact j hj, (hts j).2.2⟩,
    (hts k).1.trans hinh, fun u hu => hother u fun e => hu (e ▸ (ho.asleep t k q hsq).1)⟩
  · rw [ho.dequeue_sleepq hsq, hq, erase_cons_head]
    rfl
  · rw [ho.dequeue_sleepq hsq]
    refine erase_of_not_mem fun hmem => ?_
    rw [ho.queue, hsq] at hmem
    exact hr (congrArg Prod.snd (some.inj hmem)).symm
  · by_cases hut : u = t
    · rw [hut, hself] at hl
      simp at hl
    · rwa [hother u hut] at hl

theorem Willing.wakeLoop {x : Option T} (h : Willing env things base owner s none) (henv : env.Fixed)
    (hinh : (s.ts k).inheritor = none) (heq : Sys.wakeLoop env k q n none s = .ok (x, s')) :
    Willing env things base owner s' none ∧ Left s s' k q n := by
  induction n generalizing s with
  | zero =>
    obtain ⟨-, rfl⟩ := Prod.mk.inj (Except.ok.inj heq)
    exact ⟨h, ⟨rfl, fun _ _ => rfl, fun _ _ hl => hl, fun _ hj => ⟨hj, rfl⟩, hinh, fun _ _ => rfl⟩⟩
  | succ n ih =>
    unfold Sys.wakeLoop at heq
    split at heq
    · simp at heq
    rename_i t ws hq
    have hsq : (s.thread t).sleepq = some (k, q) :=
      (h.good.own.queue t k q).1 (by rw [hq]; exact mem_cons_self)
    rw [if_neg (by simp), setThread_clWakeup henv] at heq
    have hleft : Left s (s.dequeue env t) k q 1 := h.good.own.dequeue_left hinh hq
    obtain ⟨h1, h2⟩ := ih (h.dequeue hsq hinh) hleft.inheritor heq
    refine ⟨h1, ?_⟩
    rw [Nat.add_comm]
    exact hleft.trans h2

theorem Willing.wakeLoop_ok (h : Willing env things base owner s none) (henv : env.Fixed)
    (hinh : (s.ts k).inheritor = none) (hn : n ≤ ((s.ts k).sleepq q).length) :
    ∃ s', Sys.wakeLoop env k q n none s = .ok (none, s') := by
  induction n generalizing s with
  | zero => exact ⟨s, rfl⟩
  | succ n ih =>
    obtain ⟨t, ws, hq⟩ := exists_cons_of_length_pos ((Nat.succ_pos n).trans_le hn)
    have hsq : (s.thread t).sleepq = some (k, q) :=
      (h.good.own.queue t k q).1 (by rw [hq]; exact mem_cons_self)
    have hleft : Left s (s.dequeue env t) k q 1 := h.good.own.dequeue_left hinh hq
    unfold Sys.wakeLoop
    rw [hq]
    dsimp only
    rw [if_neg (by simp), setThread_clWakeup henv]
    exact ih (h.dequeue hsq hinh) hleft.inheritor (by rw [hleft.self, length_drop]; omega)

theorem Left.lt_waiters {u : T} (h : Left s s' k q n) (ho : Own env things s) (ho' : Own env things s')
    (hk : s.Active k) (hobj : (s.ts k).sobj = some l) (hn : n ≤ ((s.ts k).sleepq q).length)
    (hu : (s'.thread u).wchan = some l) : (s'.thread u).ts = k ∧ n < (s.ts k).waiters := by
  obtain ⟨r, hsq, ha, hobj'⟩ := ho'.of_wchan hu
  obtain ⟨ha, hsame⟩ := h.active _ ha
  rw [hsame] at hobj'
  have hts := ho.uniq _ k l ha hk hobj' hobj
  refine ⟨hts, ?_⟩
  have hmem := (ho'.queue u _ r).2 hsq
  rw [hts] at hmem
  have hcount := (ho.count k hk).1
  by_cases hr : r = q
  · subst hr
    rw [h.self] at hmem
    have hpos := length_pos_of_mem hmem
    rw [length_drop] at hpos
    cases r <;> omega
  · rw [h.other r hr] at hmem
    have hpos := length_pos_of_mem hmem
    cases r <;> cases q <;> first | exact absurd rfl hr | omega

theorem Willing.handoff {w : T} (h : Willing env things base (update owner l none) s none)
    (hinh : (s.ts k).inheritor = none) (hobj : s.Active k → (s.ts k).sobj = some l)
    (hrun : (s.thread w).wchan = none)
    (hts : ∀ u, (s.thread u).wchan = some l → (s.thread u).ts = k) :
    Willing env things base (update owner l (some w))
      (s.piInherit k w (max (s.firstPri k .writer) (s.firstPri k .reader))) none := by
  have hr := h.good.raised h.prio (i := w) (.inl hinh) (max (s.firstPri k .writer) (s.firstPri k .reader))
  have hf := h.good.own.piInherit_frame k w (max (s.firstPri k .writer) (s.firstPri k .reader))
  refine ⟨h.good.handoff k w, hr.prio, fun u => (hr.pri u).trans (h.base u),
    fun u l' o _ hl' ho => ?_, fun j l' o hj hobj' hi => ?_⟩
  · rw [hf.wchan] at hl'
    have huw : u ≠ w := fun e => by
      rw [e, hrun] at hl'
      simp at hl'
    unfold Willed
    rw [hr.other u huw, hr.pri, hf.ts]
    by_cases hl : l' = l
    · subst hl
      rw [update_self] at ho
      obtain rfl : w = o := some.inj ho
      have hk := hts u hl'
      obtain ⟨r, hsq, -, -⟩ := h.good.own.of_wchan hl'
      rw [hk] at hsq ⊢
      have hfirst := h.prio.le_firstPri ((h.good.own.queue u k r).2 hsq)
      have hle : s.dispPrio u ≤ max (s.firstPri k .writer) (s.firstPri k .reader) := by cases r <;> omega
      rcases hr.willed with hp | ⟨hi, he⟩
      · exact .inl (hle.trans hp)
      · exact .inr ⟨hi, hle.trans he⟩
    · rw [update_of_ne hl] at ho
      obtain ⟨-, -, ha, hobj'⟩ := h.good.own.of_wchan hl'
      have hne : (s.thread u).ts ≠ k := fun e => by
        rw [e] at ha hobj'
        exact hl (some.inj (hobj'.symm.trans (hobj ha)))
      rw [(hr.ts _ hne).1, (hr.ts _ hne).2]
      exact h.willed u l' o (by simp) hl' (by rwa [update_of_ne hl])
  · rw [hf.active] at hj
    rw [hf.sobj] at hobj'
    by_cases hjk : j = k
    · subst hjk
      obtain rfl : l' = l := some.inj (hobj'.symm.trans (hobj hj))
      rw [update_self]
      rcases hr.inheritor with hn | hs
      · rw [hn] at hi
        simp at hi
      · rw [← hs, hi]
    · rw [(hr.ts j hjk).1] at hi
      have hold := h.inheritor j l' o hj hobj' hi
      have hl : l' ≠ l := fun e => by
        rw [e, update_self] at hold
        simp at hold
      rw [update_of_ne hl] at hold ⊢
      exact hold

end Osol.Turnstile
