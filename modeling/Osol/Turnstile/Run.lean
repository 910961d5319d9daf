import Osol.Turnstile.Wake

/-!
# Runs of turnstiles

`turnstile_block`, `turnstile_wakeup` and `turnstile_unsleep` keep the ownership of turnstiles, from
one inactive turnstile for each thread on.
-/

namespace Osol.Turnstile

open Function List

variable {T O K B : Type} {s s' : Sys T O K B} {t : T} {k : K} {env : Env T O B} {things : List K}
  {o : O} {q : Qnum} [DecidableEq T] [DecidableEq O] [DecidableEq K] [DecidableEq B]

/-! ## `turnstile_wakeup` -/

/-- Both halves of what holds of turnstiles. -/
structure Good (env : Env T O B) (things : List K) (s : Sys T O K B) : Prop where
  own : Own env things s
  inh : Inh s

section

variable (h : Good env things s)
include h

theorem Good.piInherit (hk : s.Active k) (i : T) (epri : ℕ) : Good env things (s.piInherit k i epri) :=
  ⟨(h.own.piInherit_frame k i epri).own h.own, h.own.piInherit_inh h.inh hk i epri⟩

theorem Good.piWaive {i : T} (hk : (s.ts k).inheritor = some i) : Good env things (s.piWaive k i) :=
  ⟨(h.own.piWaive_frame k i).own h.own, h.own.piWaive_inh h.inh hk⟩

theorem Good.dequeue (hsq : (s.thread t).sleepq = some (k, q)) : Good env things (s.dequeue env t) :=
  ⟨h.own.dequeue hsq, h.own.dequeue_inh h.inh hsq⟩

theorem Good.setPri (t : T) (f : ℕ → ℕ) :
    Good env things (s.setThread t fun th => { th with pri := f th.pri }) := by
  have hprio : ∀ u, ((s.setThread t fun th => { th with pri := f th.pri }).thread u).prioinv =
    (s.thread u).prioinv := fun u => by by_cases hu : u = t <;> simp [hu]
  refine ⟨(Frame.setThread rfl rfl rfl).own h.own, fun u j => ?_, fun u => ?_, h.inh.active⟩
  · rw [hprio]
    exact h.inh.mem u j
  · rw [hprio]
    exact h.inh.nodup u

theorem Good.handoff (k : K) (i : T) :
    Good env things (s.piInherit k i (max (s.firstPri k .writer) (s.firstPri k .reader))) := by
  by_cases hk : s.Active k
  · exact h.piInherit hk i _
  · have h0 : ∀ r, s.firstPri k r = 0 := fun r => by
      unfold Sys.firstPri
      rw [h.own.sleepq_nil hk]
    rwa [h0, h0, Nat.max_self, Sys.piInherit, if_pos (Nat.zero_le _)]

end

variable {n : ℕ}

theorem Good.wakeLoop {owner owner' : Option T} (h : Good env things s)
    (heq : Sys.wakeLoop env k q n owner s = .ok (owner', s')) : Good env things s' := by
  induction n generalizing s owner with
  | zero =>
    obtain ⟨-, rfl⟩ := Prod.mk.inj (Except.ok.inj heq)
    exact h
  | succ n ih =>
    unfold Sys.wakeLoop at heq
    split at heq
    · simp at heq
    rename_i t l hq
    have hsq : (s.thread t).sleepq = some (k, q) := (h.own.queue t k q).1 (by rw [hq]; exact mem_cons_self)
    have h1 := (h.dequeue hsq).setPri t (env.clWakeup t)
    split at heq
    · exact ih (h1.handoff k t) heq
    · exact ih h1 heq

theorem Good.wakeup {owner : Option T} (h : Good env things s) (heq : s.wakeup env k q n owner = .ok s') :
    Good env things s' := by
  unfold Sys.wakeup at heq
  dsimp only at heq
  split at heq
  · simp at heq
  · simp at heq
  · rename_i s2 hl
    rw [← Except.ok.inj heq]
    split at hl
    · exact h.wakeLoop hl
    · rename_i i hi
      exact (h.piWaive hi).wakeLoop hl

theorem Own.dequeue_sleepq (ho : Own env things s) (hsq : (s.thread t).sleepq = some (k, q)) (j : K)
    (r : Qnum) : ((s.dequeue env t).ts j).sleepq r = ((s.ts j).sleepq r).erase t := by
  obtain ⟨hk, ⟨b, hb⟩, -⟩ := ho.asleep t k q hsq
  obtain ⟨o, hobj, -⟩ := ho.sobj b k hb
  have hqueue : (s.dequeue env t).ts = update s.ts k ((s.dequeue env t).ts k) ∧
      ((s.dequeue env t).ts k).sleepq = update (s.ts k).sleepq q (((s.ts k).sleepq q).erase t) := by
    cases hfree : (s.ts k).free with
    | cons c l =>
      rw [(dequeue_free env hk hsq hfree).1]
      simp [leftTs]
    | nil =>
      rw [(dequeue_last env hk hsq hfree hobj).1]
      simp [leftTs]
  have hnot : ¬ (j = k ∧ r = q) → ((s.ts j).sleepq r).erase t = (s.ts j).sleepq r := fun hne => by
    refine erase_of_not_mem fun hmem => ?_
    rw [ho.queue, hsq] at hmem
    cases hmem
    exact hne ⟨rfl, rfl⟩
  by_cases hj : j = k
  · subst hj
    rw [hqueue.2]
    by_cases hr : r = q
    · subst hr
      rw [update_self]
    · rw [update_of_ne hr, hnot fun h => hr h.2]
  · rw [hqueue.1, update_of_ne hj, hnot fun h => hj h.1]

section

variable (h : Good env things s)
include h

/-! ## `turnstile_block` -/

theorem Good.will {owner : O → Option T} {curthread : T} {fuel : ℕ}
    (heq : Sys.will owner curthread fuel t s = .ok s') : Good env things s' := by
  induction fuel generalizing s t with
  | zero => exact absurd heq (by simp [Sys.will])
  | succ n ih =>
    unfold Sys.will at heq
    split at heq
    · rwa [← Except.ok.inj heq]
    rename_i i hi
    split at heq
    · simp at heq
    · obtain ⟨o, hw, -⟩ := Option.bind_eq_some_iff.1 hi
      obtain ⟨-, -, hk, -⟩ := h.own.of_wchan hw
      exact ih (h.piInherit hk i _) heq

theorem Good.block {owner : O → Option T} {fuel : ℕ} (hrun : (s.thread t).wchan = none)
    (heq : s.block env owner fuel t q o = .ok s') : Good env things s' := by
  unfold Sys.block at heq
  split at heq
  · simp at heq
  · have h1 : Good env things (enqueue env s t o q) := ⟨h.own.enqueue hrun o q, h.inh.enqueue env t o q⟩
    exact h1.will heq

theorem Good.unsleep (ht : (s.thread t).wchan ≠ none) : Good env things (s.unsleep env t) := by
  obtain ⟨o, ho⟩ := Option.ne_none_iff_exists'.1 ht
  obtain ⟨q, hsq, -⟩ := h.own.of_wchan ho
  exact h.dequeue hsq

theorem Good.changePri (t : T) (pri : ℕ) : Good env things (s.threadChangePri t pri) := by
  have hr := h.own.changePri t pri (s.thread t).epri
  exact ⟨hr.frame.own h.own, hr.inh h.inh⟩

end

/-! ## Runs -/

/-- One call of a function, under the lock of its hash chain, or a change of the priority of a
thread. Who owns an object is any function of the objects. -/
inductive Step (env : Env T O B) : Sys T O K B → Sys T O K B → Prop
  | block {s s' : Sys T O K B} (t : T) (q : Qnum) (o : O) (owner : O → Option T) (fuel : ℕ) :
      (s.thread t).wchan = none → s.block env owner fuel t q o = .ok s' → Step env s s'
  | wakeup {s s' : Sys T O K B} (o : O) (k : K) (q : Qnum) (nthreads : ℕ) (owner : Option T) :
      s.lookup env o = some k → s.wakeup env k q nthreads owner = .ok s' → Step env s s'
  | unsleep {s : Sys T O K B} (t : T) : (s.thread t).wchan ≠ none → Step env s (s.unsleep env t)
  | changePri {s : Sys T O K B} (t : T) (pri : ℕ) : Step env s (s.threadChangePri t pri)

/-- Threads that run, each with a turnstile of its own that nobody uses. -/
structure Start (s : Sys T O K B) : Prop where
  thread : ∀ t, (s.thread t).wchan = none ∧ (s.thread t).sleepq = none ∧ (s.thread t).prioinv = []
  inj : Injective fun t => (s.thread t).ts
  ts : ∀ k, (s.ts k).waiters = 0 ∧ (s.ts k).free = [] ∧ (s.ts k).inheritor = none ∧ ∀ q,
    (s.ts k).sleepq q = []
  chain : ∀ b, s.chain b = []

/-- The states of the runs. -/
inductive Reachable (env : Env T O B) : Sys T O K B → Prop
  | start {s : Sys T O K B} : Start s → Reachable env s
  | step {s s' : Sys T O K B} : Reachable env s → Step env s s' → Reachable env s'

theorem Good.step (h : Good env things s) (hs : Step env s s') : Good env things s' := by
  cases hs with
  | block t q o owner fuel hrun heq => exact h.block hrun heq
  | wakeup o k q nthreads owner _ heq => exact h.wakeup heq
  | unsleep t ht => exact h.unsleep ht
  | changePri t pri => exact h.changePri t pri

theorem good_start [Fintype T] (h : Start s) (env : Env T O B) :
    Good env (Finset.univ.toList.map fun t => (s.thread t).ts) s := by
  have hna : ∀ k, ¬ s.Active k := fun k ⟨b, hb⟩ => by
    rw [h.chain] at hb
    simp at hb
  have hsq : ∀ t, (s.thread t).sleepq = none := fun t => (h.thread t).2.1
  refine ⟨⟨⟨fun p => ?_, fun p p' c hc hc' => ?_, fun c => ?_⟩, fun b k hk => absurd ⟨b, hk⟩ (hna k),
    fun k _ _ hk => absurd hk (hna k), fun k hk => absurd hk (hna k), fun k _ => ⟨(h.ts k).1, (h.ts k).2.1⟩,
    fun t k q => ?_, fun k q => ?_, fun t k q ht => ?_, fun t _ => (h.thread t).1⟩,
    fun t k => ?_, fun t => ?_, fun k t hk => ?_⟩
  · cases p with
    | own t => simp [place, (h.thread t).1]
    | free k => simp [place, (h.ts k).2.1]
    | chain b => simp [place, h.chain b]
  · cases p with
    | own t =>
      cases p' with
      | own u =>
        simp only [place, (h.thread t).1, (h.thread u).1, if_pos, mem_singleton] at hc hc'
        rw [h.inj (hc.symm.trans hc')]
      | free k => simp [place, (h.ts k).2.1] at hc'
      | chain b => simp [place, h.chain b] at hc'
    | free k => simp [place, (h.ts k).2.1] at hc
    | chain b => simp [place, h.chain b] at hc
  · rw [mem_map]
    constructor
    · rintro ⟨t, -, rfl⟩
      exact ⟨.own t, by simp [place, (h.thread t).1]⟩
    rintro ⟨p, hp⟩
    cases p with
    | own t =>
      simp only [place, (h.thread t).1, if_pos, mem_singleton] at hp
      exact ⟨t, Finset.mem_toList.2 (Finset.mem_univ t), hp.symm⟩
    | free k => simp [place, (h.ts k).2.1] at hp
    | chain b => simp [place, h.chain b] at hp
  · rw [(h.ts k).2.2.2 q, hsq]
    simp
  · rw [(h.ts k).2.2.2 q]
    exact nodup_nil
  · rw [hsq] at ht
    simp at ht
  · rw [(h.thread t).2.2, (h.ts k).2.2.1]
    simp
  · rw [(h.thread t).2.2]
    exact nodup_nil
  · rw [(h.ts k).2.2.1] at hk
    simp at hk

theorem good_of_reachable [Fintype T] (h : Reachable env s) : ∃ things, Good env things s := by
  induction h with
  | start h => exact ⟨_, good_start h env⟩
  | step _ hs ih =>
    obtain ⟨things, h⟩ := ih
    exact ⟨things, h.step hs⟩

/-! ## Ownership -/

/-- Whose the turnstiles are. -/
structure Owned (env : Env T O B) (s : Sys T O K B) : Prop where
  /-- A hash chain holds turnstiles of its objects, each once. -/
  chain : ∀ b, (s.chain b).Nodup ∧ ∀ k ∈ s.chain b, ∃ o, (s.ts k).sobj = some o ∧ env.bucket o = b
  /-- An object has one active turnstile at most, and has one if threads are blocked on it. -/
  one : ∀ o, ∀ k ∈ s.chain (env.bucket o), ∀ k' ∈ s.chain (env.bucket o), (s.ts k).sobj = some o →
    (s.ts k').sobj = some o → k = k'
  present : ∀ o, (∃ k ∈ s.chain (env.bucket o), (s.ts k).sobj = some o) ↔ ∃ t, (s.thread t).wchan = some o
  /-- The threads on the two queues are those that are blocked on the object. -/
  queues : ∀ o, ∀ k ∈ s.chain (env.bucket o), (s.ts k).sobj = some o →
    (∀ q, ((s.ts k).sleepq q).Nodup) ∧ ∀ t, (∃ q, t ∈ (s.ts k).sleepq q) ↔ (s.thread t).wchan = some o
  waiters : ∀ o, ∀ k ∈ s.chain (env.bucket o), (s.ts k).sobj = some o →
    (s.ts k).waiters = ((s.ts k).sleepq .writer).length + ((s.ts k).sleepq .reader).length ∧
      (s.ts k).waiters = (s.ts k).free.length + 1
  blocked : ∀ t o, (s.thread t).wchan = some o →
    (s.thread t).ts ∈ s.chain (env.bucket o) ∧ (s.ts (s.thread t).ts).sobj = some o
  /-- A running thread has a turnstile of its own, which is on no list. -/
  running : ∀ t, (s.thread t).wchan = none → (∀ b, (s.thread t).ts ∉ s.chain b) ∧
    (∀ k, (s.thread t).ts ∉ (s.ts k).free) ∧
    (∀ u, (s.thread t).ts ∉ (s.thread u).prioinv) ∧ ∀ u, u ≠ t → (s.thread u).ts ≠ (s.thread t).ts
  /-- A thread's list is that of the active turnstiles that it inherits from, each once. -/
  prioinv : ∀ t, (s.thread t).prioinv.Nodup ∧
    ∀ k, k ∈ (s.thread t).prioinv ↔ (∃ b, k ∈ s.chain b) ∧ (s.ts k).inheritor = some t

theorem Good.owned (h : Good env things s) : Owned env s where
  chain b := ⟨h.own.places.nodup (.chain b), h.own.sobj b⟩
  one o k hk k' hk' := h.own.uniq k k' o ⟨_, hk⟩ ⟨_, hk'⟩
  present o := by
    constructor
    · rintro ⟨k, hk, hobj⟩
      obtain ⟨h1, h2⟩ := h.own.count k ⟨_, hk⟩
      have hpos : ∃ q, (s.ts k).sleepq q ≠ [] := by
        by_contra hnil
        have hnil' : ∀ q, (s.ts k).sleepq q = [] := fun q => by
          by_contra hq
          exact hnil ⟨q, hq⟩
        rw [hnil', hnil', h2] at h1
        simp at h1
      obtain ⟨q, hq⟩ := hpos
      obtain ⟨t, ht⟩ := exists_mem_of_ne_nil _ hq
      exact ⟨t, by rw [(h.own.asleep t k q ((h.own.queue t k q).1 ht)).2.2, hobj]⟩
    · rintro ⟨t, ht⟩
      obtain ⟨-, -, ⟨b, hb⟩, hobj⟩ := h.own.of_wchan ht
      obtain ⟨o', ho', rfl⟩ := h.own.sobj b _ hb
      obtain rfl : o' = o := Option.some.inj (ho'.symm.trans hobj)
      exact ⟨_, hb, hobj⟩
  queues o k hk hobj := by
    refine ⟨h.own.nodup k, fun t => ⟨?_, fun ht => ?_⟩⟩
    · rintro ⟨q, ht⟩
      rw [(h.own.asleep t k q ((h.own.queue t k q).1 ht)).2.2, hobj]
    · obtain ⟨q, hsq, ha, hobj'⟩ := h.own.of_wchan ht
      rw [h.own.uniq _ k o ha ⟨_, hk⟩ hobj' hobj] at hsq
      exact ⟨q, (h.own.queue t k q).2 hsq⟩
  waiters o k hk _ := h.own.count k ⟨_, hk⟩
  blocked t o ht := by
    obtain ⟨-, -, ⟨b, hb⟩, hobj⟩ := h.own.of_wchan ht
    obtain ⟨o', ho', rfl⟩ := h.own.sobj b _ hb
    obtain rfl : o' = o := Option.some.inj (ho'.symm.trans hobj)
    exact ⟨hb, hobj⟩
  running t ht := by
    have hmem : (s.thread t).ts ∈ place s (.own t) := by simp [place, ht]
    have hna := h.own.ts_not_active ht
    refine ⟨fun b hb => hna ⟨b, hb⟩, fun k hk => ?_, fun u hu => ?_, fun u hu heq => ?_⟩
    · exact absurd (h.own.places.unique _ (.free k) _ hmem hk) (by simp)
    · exact hna (h.inh.active _ u ((h.inh.mem u _).1 hu))
    cases hw : (s.thread u).wchan with
    | none =>
      have hmem' : (s.thread t).ts ∈ place s (.own u) := by simp [place, hw, heq]
      exact hu (Place.own.inj (h.own.places.unique _ _ _ hmem' hmem))
    | some o =>
      obtain ⟨-, -, ha, -⟩ := h.own.of_wchan hw
      exact hna (heq ▸ ha)
  prioinv t := by
    refine ⟨h.inh.nodup t, fun k => ?_⟩
    rw [h.inh.mem]
    exact ⟨fun hk => ⟨h.inh.active k t hk, hk⟩, fun hk => hk.2⟩

/-- The ownership of turnstiles, in every state of every run. -/
theorem turnstile_ownership [Fintype T] (h : Reachable env s) : Owned env s := by
  obtain ⟨things, hg⟩ := good_of_reachable h
  exact hg.owned

/-- Two threads, with as many turnstiles, and one object. -/
def oneObject : Env (Fin 2) Unit Unit := ⟨fun _ => (), fun _ => false, fun _ pri => pri, fun _ pri => pri⟩

def twoRunning : Sys (Fin 2) Unit (Fin 2) Unit where
  ts _ := ⟨none, 0, 0, none, [], fun _ => []⟩
  thread t := ⟨t, t, 0, false, [], none, none⟩
  chain _ := []

/-- A thread blocks on an object of another. -/
def oneBlocked (owner t : Fin 2) : Sys (Fin 2) Unit (Fin 2) Unit :=
  match twoRunning.block oneObject (fun _ => some owner) 2 t .writer () with
  | .ok s => s
  | .error _ => twoRunning

theorem turnstile_ownership_two :
    ((oneBlocked 0 1).thread 0).prioinv = [1] ∧ Owned oneObject (oneBlocked 0 1) :=
  ⟨by decide +kernel, turnstile_ownership (.step (s := twoRunning)
    (.start ⟨fun _ => ⟨rfl, rfl, rfl⟩, fun _ _ h => h, fun _ => ⟨rfl, rfl, rfl, fun _ => rfl⟩,
      fun _ => rfl⟩)
    (.block 1 .writer () (fun _ => some 0) 2 rfl rfl))⟩

end Osol.Turnstile
