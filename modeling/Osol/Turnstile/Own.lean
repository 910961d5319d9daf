import Osol.Turnstile.Basic
import Osol.Lib.Places

/-!
# Who has which turnstile

A turnstile is on a hash chain, or stashed on the list of one that is, or a running thread has it.
Blocking and waking move one turnstile from one of these places to another one. Priorities change
nothing of that.
-/

namespace Osol.Turnstile

open Lib Function

variable {T O K B : Type}

namespace Sys

def Active (s : Sys T O K B) (k : K) : Prop := ∃ b, k ∈ s.chain b

end Sys

/-- Where a turnstile can be. -/
inductive Place (T K B : Type)
  | own (t : T)
  | free (k : K)
  | chain (b : B)
  deriving DecidableEq

def place [DecidableEq O] (s : Sys T O K B) : Place T K B → List K
  | .own t => if (s.thread t).wchan = none then [(s.thread t).ts] else []
  | .free k => (s.ts k).free
  | .chain b => s.chain b

/-- The turnstiles, the queues and the threads agree. -/
structure Own [DecidableEq T] [DecidableEq O] [DecidableEq K] [DecidableEq B] (env : Env T O B)
    (things : List K) (s : Sys T O K B) : Prop where
  places : Places things (place s)
  sobj : ∀ b k, k ∈ s.chain b → ∃ o, (s.ts k).sobj = some o ∧ env.bucket o = b
  uniq : ∀ k k' o, s.Active k → s.Active k' → (s.ts k).sobj = some o → (s.ts k').sobj = some o → k = k'
  count : ∀ k, s.Active k →
    (s.ts k).waiters = ((s.ts k).sleepq .writer).length + ((s.ts k).sleepq .reader).length ∧
      (s.ts k).waiters = (s.ts k).free.length + 1
  idle : ∀ k, ¬ s.Active k → (s.ts k).waiters = 0 ∧ (s.ts k).free = []
  queue : ∀ t k q, t ∈ (s.ts k).sleepq q ↔ (s.thread t).sleepq = some (k, q)
  nodup : ∀ k q, ((s.ts k).sleepq q).Nodup
  asleep : ∀ t k q, (s.thread t).sleepq = some (k, q) →
    (s.thread t).ts = k ∧ s.Active k ∧ (s.thread t).wchan = (s.ts k).sobj
  awake : ∀ t, (s.thread t).sleepq = none → (s.thread t).wchan = none

/-- The lists of the threads are those of the turnstiles that they inherit from. -/
structure Inh (s : Sys T O K B) : Prop where
  mem : ∀ t k, k ∈ (s.thread t).prioinv ↔ (s.ts k).inheritor = some t
  nodup : ∀ t, (s.thread t).prioinv.Nodup
  active : ∀ k t, (s.ts k).inheritor = some t → s.Active k

theorem Inh.congr {s s' : Sys T O K B} (hi : Inh s)
    (hprio : ∀ u, (s'.thread u).prioinv = (s.thread u).prioinv)
    (hinh : ∀ k, (s'.ts k).inheritor = (s.ts k).inheritor) (hact : ∀ k, s.Active k → s'.Active k) :
      Inh s' := by
  refine ⟨fun u k => ?_, fun u => ?_, fun k u hk => ?_⟩
  · rw [hprio, hinh]
    exact hi.mem u k
  · rw [hprio]
    exact hi.nodup u
  · rw [hinh] at hk
    exact hact k (hi.active k u hk)

/-! ## Steps that move no turnstile -/

/-- Only priorities and inheritors differ. -/
structure Frame (s s' : Sys T O K B) : Prop where
  chain : s'.chain = s.chain
  sobj : ∀ k, (s'.ts k).sobj = (s.ts k).sobj
  waiters : ∀ k, (s'.ts k).waiters = (s.ts k).waiters
  free : ∀ k, (s'.ts k).free = (s.ts k).free
  queue : ∀ k q, ((s'.ts k).sleepq q).Perm ((s.ts k).sleepq q)
  ts : ∀ t, (s'.thread t).ts = (s.thread t).ts
  wchan : ∀ t, (s'.thread t).wchan = (s.thread t).wchan
  sleepq : ∀ t, (s'.thread t).sleepq = (s.thread t).sleepq

namespace Frame

variable {s s' s'' : Sys T O K B}

theorem refl (s : Sys T O K B) : Frame s s :=
  ⟨rfl, fun _ => rfl, fun _ => rfl, fun _ => rfl, fun _ _ => .refl _, fun _ => rfl, fun _ => rfl,
    fun _ => rfl⟩

theorem trans (h : Frame s s') (h' : Frame s' s'') : Frame s s'' where
  chain := h'.chain.trans h.chain
  sobj k := (h'.sobj k).trans (h.sobj k)
  waiters k := (h'.waiters k).trans (h.waiters k)
  free k := (h'.free k).trans (h.free k)
  queue k q := (h'.queue k q).trans (h.queue k q)
  ts t := (h'.ts t).trans (h.ts t)
  wchan t := (h'.wchan t).trans (h.wchan t)
  sleepq t := (h'.sleepq t).trans (h.sleepq t)

theorem active (h : Frame s s') (k : K) : s'.Active k ↔ s.Active k := by
  unfold Sys.Active
  rw [h.chain]

theorem setTs [DecidableEq K] {k : K} {f : Ts T O K → Ts T O K} (h1 : (f (s.ts k)).sobj = (s.ts k).sobj)
    (h2 : (f (s.ts k)).waiters = (s.ts k).waiters) (h3 : (f (s.ts k)).free = (s.ts k).free)
    (h4 : (f (s.ts k)).sleepq = (s.ts k).sleepq) : Frame s (s.setTs k f) := by
  refine ⟨rfl, fun j => ?_, fun j => ?_, fun j => ?_, fun j q => ?_, fun _ => rfl, fun _ => rfl,
    fun _ => rfl⟩ <;>
    by_cases hj : j = k <;> simp [hj, h1, h2, h3, h4]

theorem setThread [DecidableEq T] {t : T} {g : Thread O K → Thread O K}
    (h1 : (g (s.thread t)).ts = (s.thread t).ts)
    (h2 : (g (s.thread t)).wchan = (s.thread t).wchan)
      (h3 : (g (s.thread t)).sleepq = (s.thread t).sleepq) :
    Frame s (s.setThread t g) := by
  refine ⟨rfl, fun _ => rfl, fun _ => rfl, fun _ => rfl, fun _ _ => .refl _, fun u => ?_,
    fun u => ?_, fun u => ?_⟩ <;>
    by_cases hu : u = t <;> simp [hu, h1, h2, h3]

variable [DecidableEq O]

theorem place_eq (h : Frame s s') : place s' = place s := by
  funext p
  cases p with
  | own t => simp only [place, h.wchan, h.ts]
  | free k => exact h.free k
  | chain b => exact congrFun h.chain b

variable [DecidableEq T] [DecidableEq K] [DecidableEq B] {env : Env T O B} {things : List K}

theorem own (h : Frame s s') (ho : Own env things s) : Own env things s' where
  places := h.place_eq ▸ ho.places
  sobj b k hk := by
    rw [h.chain] at hk
    rw [h.sobj]
    exact ho.sobj b k hk
  uniq k k' o hk hk' := by
    rw [h.sobj, h.sobj]
    exact ho.uniq k k' o ((h.active k).1 hk) ((h.active k').1 hk')
  count k hk := by
    rw [h.waiters, h.free, (h.queue k .writer).length_eq, (h.queue k .reader).length_eq]
    exact ho.count k ((h.active k).1 hk)
  idle k hk := by
    rw [h.waiters, h.free]
    exact ho.idle k fun hk' => hk ((h.active k).2 hk')
  queue t k q := by
    rw [(h.queue k q).mem_iff, h.sleepq]
    exact ho.queue t k q
  nodup k q := (h.queue k q).nodup_iff.2 (ho.nodup k q)
  asleep t k q ht := by
    rw [h.sleepq] at ht
    rw [h.ts, h.wchan, h.sobj, h.active]
    exact ho.asleep t k q ht
  awake t ht := by
    rw [h.sleepq] at ht
    rw [h.wchan]
    exact ho.awake t ht

end Frame

/-! ## Priorities -/

/-- A thread has other priorities, and its queue is sorted again. -/
structure Repri (s s' : Sys T O K B) (t : T) (pri epri : ℕ) : Prop where
  chain : s'.chain = s.chain
  ts : ∀ k, s'.ts k = { s.ts k with sleepq := (s'.ts k).sleepq }
  queue : ∀ k q, ((s'.ts k).sleepq q).Perm ((s.ts k).sleepq q)
  self : s'.thread t = { s.thread t with pri := pri, epri := epri }
  other : ∀ u, u ≠ t → s'.thread u = s.thread u
  sorted : (∀ k q, Sorted s.cmpPrio ((s.ts k).sleepq q)) → ∀ k q, Sorted s'.cmpPrio ((s'.ts k).sleepq q)

theorem Repri.frame {s s' : Sys T O K B} {t : T} {pri epri : ℕ} [DecidableEq T]
    (h : Repri s s' t pri epri) : Frame s s' := by
  have hth : ∀ u, (s'.thread u).ts = (s.thread u).ts ∧ (s'.thread u).wchan = (s.thread u).wchan ∧
      (s'.thread u).sleepq = (s.thread u).sleepq := fun u => by
    by_cases hu : u = t
    · rw [hu, h.self]
      exact ⟨rfl, rfl, rfl⟩
    · rw [h.other u hu]
      exact ⟨rfl, rfl, rfl⟩
  refine ⟨h.chain, fun k => ?_, fun k => ?_, fun k => ?_, h.queue, fun u => (hth u).1,
    fun u => (hth u).2.1, fun u => (hth u).2.2⟩
  · rw [h.ts k]
  · rw [h.ts k]
  · rw [h.ts k]

theorem sorted_congr {pri pri' : T → ℕ} {t : T} {q : List T} (ht : t ∉ q)
    (h : ∀ u, u ≠ t → pri' u = pri u) (hq : Sorted pri q) : Sorted pri' q := by
  refine hq.imp_of_mem fun {u v} hu hv huv => ?_
  rwa [h u fun e => ht (e ▸ hu), h v fun e => ht (e ▸ hv)]

variable {s s' : Sys T O K B} {t : T} {k : K} [DecidableEq T] [DecidableEq K]

theorem changePri_asleep {q : Qnum} (hsq : (s.thread t).sleepq = some (k, q)) (pri epri : ℕ) :
    s.changePri t pri epri = { s with
        ts := update s.ts k { s.ts k with
          sleepq := update (s.ts k).sleepq q
            (sleepqInsert (s.setThread t fun th => { th with pri := pri, epri := epri }).cmpPrio t
              (((s.ts k).sleepq q).erase t)) }
        thread := update s.thread t { s.thread t with pri := pri, epri := epri } } := by
  have hcmp : ((s.sleepqDequeue t).setThread t fun th => { th with pri := pri, epri := epri }).cmpPrio =
      (s.setThread t fun th => { th with pri := pri, epri := epri }).cmpPrio := by
    funext u
    by_cases hu : u = t
    · simp [Sys.cmpPrio, Sys.sleepqDequeue, hsq, hu, Thread.cmpPrio, Thread.dispPrio]
    · simp [Sys.cmpPrio, Sys.sleepqDequeue, hsq, hu]
  unfold Sys.changePri
  rw [hsq]
  dsimp only
  rw [Sys.sleepqInsert, hcmp]
  simp [Sys.sleepqDequeue, hsq, Sys.setTs, Sys.setThread]

variable [DecidableEq O] [DecidableEq B] {env : Env T O B} {things : List K}

theorem Own.changePri (ho : Own env things s) (t : T) (pri epri : ℕ) :
    Repri s (s.changePri t pri epri) t pri epri := by
  cases hsq : (s.thread t).sleepq with
  | none =>
    unfold Sys.changePri
    rw [hsq]
    refine ⟨rfl, fun k => rfl, fun k q => .refl _, by simp, fun u hu => by simp [hu], fun h k q => ?_⟩
    refine sorted_congr (t := t) (fun hmem => ?_) (fun u hu => ?_) (h k q)
    · have := (ho.queue t k q).1 hmem
      rw [hsq] at this
      simp at this
    · simp [Sys.cmpPrio, hu]
  | some kq =>
    obtain ⟨k, q⟩ := kq
    have hmem := (ho.queue t k q).2 hsq
    have hperm : (sleepqInsert (s.setThread t fun th => { th with pri := pri, epri := epri }).cmpPrio t
        (((s.ts k).sleepq q).erase t)).Perm ((s.ts k).sleepq q) :=
      (sleepqInsert_perm _ _ _).trans (List.perm_cons_erase hmem).symm
    have hcmp : ∀ u, u ≠ t → (s.setThread t fun th => { th with pri := pri, epri := epri }).cmpPrio
      u = s.cmpPrio u := fun u hu => by simp [Sys.cmpPrio, hu]
    rw [changePri_asleep hsq]
    refine ⟨rfl, fun k' => ?_, fun k' q' => ?_, by simp, fun u hu => by simp [hu], fun h k' q' => ?_⟩
    · by_cases hk : k' = k
      · subst hk
        simp
      · simp [hk]
    · by_cases hk : k' = k
      · subst hk
        by_cases hq : q' = q
        · subst hq
          simpa using hperm
        · simp [hq]
      · simp [hk]
    · change Sorted (s.setThread t fun th => { th with pri := pri, epri := epri }).cmpPrio _
      by_cases hkq : k' = k ∧ q' = q
      · obtain ⟨rfl, rfl⟩ := hkq
        have hrest : Sorted (s.setThread t fun th => { th with pri := pri, epri := epri }).cmpPrio
            (((s.ts k').sleepq q').erase t) :=
          sorted_congr (fun hin => (ho.nodup k' q').not_mem_erase hin) hcmp
          ((h k' q').sublist List.erase_sublist)
        simpa using sorted_sleepqInsert hrest
      have hsame : t ∉ (s.ts k').sleepq q' := fun hin => by
        have := (ho.queue t k' q').1 hin
        rw [hsq] at this
        exact hkq (by simpa [eq_comm] using this)
      have hsorted := sorted_congr hsame hcmp (h k' q')
      by_cases hk : k' = k
      · subst hk
        have hq : q' ≠ q := fun hq => hkq ⟨rfl, hq⟩
        simpa [hq] using hsorted
      · simpa [hk] using hsorted

theorem Own.threadChangeEpri (ho : Own env things s) (t : T) (pri : ℕ) :
    Repri s (s.threadChangeEpri t pri) t (s.thread t).pri pri := by
  unfold Sys.threadChangeEpri
  split
  · rename_i h
    refine ⟨rfl, fun _ => rfl, fun _ _ => .refl _, ?_, fun _ _ => rfl, fun h => h⟩
    rw [← h]
  · exact ho.changePri t _ pri

end Osol.Turnstile
