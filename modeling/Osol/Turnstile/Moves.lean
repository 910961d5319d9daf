import Osol.Turnstile.Inherit

/-!
# Turnstiles that move

The first thread to block puts its turnstile on the hash chain, the others stash theirs on its list.
A thread that wakes takes one from the list, and the last one takes the turnstile itself.
-/

namespace Osol.Turnstile

open Lib Function List Sys Option

variable {T O K B : Type} {s s' : Sys T O K B} {t : T} {k : K}

theorem cmpPrio_congr (h : ∀ u, (s'.thread u).pri = (s.thread u).pri ∧
    (s'.thread u).epri = (s.thread u).epri ∧
    (s'.thread u).writer = (s.thread u).writer) : s'.cmpPrio = s.cmpPrio := by
  funext u
  obtain ⟨h1, h2, h3⟩ := h u
  simp only [Sys.cmpPrio, Thread.cmpPrio, Thread.dispPrio, h1, h2, h3]

variable {env : Env T O B} {things : List K} {o : O} {q : Qnum}

/-! ## Lookups -/

theorem lookup_some [DecidableEq O] (h : s.lookup env o = some k) :
    k ∈ s.chain (env.bucket o) ∧ (s.ts k).sobj = some o :=
  ⟨List.mem_of_find?_eq_some h, by simpa using List.find?_some h⟩

variable [DecidableEq T] [DecidableEq O] [DecidableEq K] [DecidableEq B]

section

variable (ho : Own env things s)
include ho

theorem not_active_of_lookup (h : s.lookup env o = none) (hk : s.Active k) : (s.ts k).sobj ≠ some o := by
  intro hobj
  obtain ⟨b, hb⟩ := hk
  obtain ⟨o', h1, rfl⟩ := ho.sobj b k hb
  obtain rfl : o' = o := some.inj (h1.symm.trans hobj)
  rw [Sys.lookup, List.find?_eq_none] at h
  exact h k hb (by simpa using hobj)

theorem Own.sleepq_none (h : (s.thread t).wchan = none) : (s.thread t).sleepq = none := by
  cases hsq : (s.thread t).sleepq with
  | none => rfl
  | some kq =>
    obtain ⟨k, q⟩ := kq
    obtain ⟨-, ⟨b, hb⟩, hw⟩ := ho.asleep t k q hsq
    obtain ⟨o, ho', -⟩ := ho.sobj b k hb
    rw [h, ho'] at hw
    simp at hw

theorem Own.of_wchan (h : (s.thread t).wchan = some o) :
    ∃ q, (s.thread t).sleepq = some ((s.thread t).ts, q) ∧ s.Active (s.thread t).ts ∧
      (s.ts (s.thread t).ts).sobj = some o := by
  cases hsq : (s.thread t).sleepq with
  | none => exact absurd (ho.awake t hsq) (by simp [h])
  | some kq =>
    obtain ⟨k, q⟩ := kq
    obtain ⟨rfl, hk, hw⟩ := ho.asleep t k q hsq
    exact ⟨q, rfl, hk, hw.symm.trans h⟩

theorem Own.ts_not_active (h : (s.thread t).wchan = none) : ¬ s.Active (s.thread t).ts := by
  rintro ⟨b, hb⟩
  have := ho.places.unique (.own t) (.chain b) (s.thread t).ts (by simp [place, h]) hb
  simp at this

end

/-! ## Blocking -/

/-- The thread blocks on the object. -/
def enqueue (env : Env T O B) (s : Sys T O K B) (t : T) (o : O) (q : Qnum) : Sys T O K B :=
  (s.attach env t o).sleep env t q o

def sleepOrder (env : Env T O B) (s : Sys T O K B) (t : T) : T → ℕ :=
  (s.setThread t fun th => { th with pri := env.clSleep t th.pri }).cmpPrio

/-- The turnstile of a thread that blocks first. -/
def firstTs (env : Env T O B) (s : Sys T O K B) (t : T) (o : O) (q : Qnum) : Ts T O K :=
  { s.ts (s.thread t).ts with
    sobj := some o
    waiters := (s.ts (s.thread t).ts).waiters + 1
    sleepq := update (s.ts (s.thread t).ts).sleepq q
      (sleepqInsert (sleepOrder env s t) t ((s.ts (s.thread t).ts).sleepq q)) }

/-- The turnstile that another thread blocks on. -/
def moreTs (env : Env T O B) (s : Sys T O K B) (t : T) (q : Qnum) (k : K) : Ts T O K :=
  { s.ts k with
    free := (s.thread t).ts :: (s.ts k).free
    waiters := (s.ts k).waiters + 1
    sleepq := update (s.ts k).sleepq q (sleepqInsert (sleepOrder env s t) t ((s.ts k).sleepq q)) }

def sleeper (env : Env T O B) (s : Sys T O K B) (t : T) (o : O) (q : Qnum) (k : K) : Thread O K :=
  { s.thread t with ts := k, pri := env.clSleep t (s.thread t).pri, wchan := some o, sleepq := some (k, q) }

theorem attach_order (env : Env T O B) (s : Sys T O K B) (t : T) (o : O) (f : Ts T O K → Ts T O K) :
    (((s.attach env t o).setThread t fun th =>
      { th with pri := env.clSleep t th.pri, wchan := some o }).setTs k f).cmpPrio =
      sleepOrder env s t := by
  refine cmpPrio_congr fun u => ?_
  unfold Sys.attach
  split <;> by_cases hu : u = t <;> simp [hu]

theorem enqueue_first (h : s.lookup env o = none) :
    (enqueue env s t o q).ts = update s.ts (s.thread t).ts (firstTs env s t o q) ∧
    (enqueue env s t o q).thread = update s.thread t (sleeper env s t o q (s.thread t).ts) ∧
    (enqueue env s t o q).chain =
    update s.chain (env.bucket o) ((s.thread t).ts :: s.chain (env.bucket o)) := by
  simp only [enqueue, Sys.sleep, Sys.sleepqInsert, attach_order]
  simp only [Sys.attach, h]
  exact ⟨by simp [firstTs], by simp [sleeper], by simp⟩

theorem enqueue_more (h : s.lookup env o = some k) :
    (enqueue env s t o q).ts = update s.ts k (moreTs env s t q k) ∧
    (enqueue env s t o q).thread = update s.thread t (sleeper env s t o q k) ∧
    (enqueue env s t o q).chain = s.chain := by
  simp only [enqueue, Sys.sleep, Sys.sleepqInsert, attach_order]
  simp only [Sys.attach, h]
  exact ⟨by simp [moreTs], by simp [sleeper], by simp⟩

/-- What blocking does, on either turnstile. -/
theorem enqueue_change (env : Env T O B) (s : Sys T O K B) (t : T) (o : O) (q : Qnum) :
    ∃ k sobj free, (enqueue env s t o q).ts = update s.ts k { s.ts k with
      sobj := sobj
      free := free
      waiters := (s.ts k).waiters + 1
      sleepq := update (s.ts k).sleepq q (sleepqInsert (sleepOrder env s t) t ((s.ts k).sleepq q)) } ∧
    (enqueue env s t o q).thread = update s.thread t (sleeper env s t o q k) ∧
    ∀ j, s.Active j → (enqueue env s t o q).Active j := by
  cases hl : s.lookup env o with
  | none =>
    obtain ⟨hts, hth, hch⟩ := enqueue_first hl
    refine ⟨_, _, _, hts, hth, fun j ⟨b, hb⟩ => ⟨b, ?_⟩⟩
    rw [hch, update_apply]
    split_ifs with h
    · exact mem_cons_of_mem _ (h ▸ hb)
    · exact hb
  | some k =>
    obtain ⟨hts, hth, hch⟩ := enqueue_more hl
    refine ⟨_, _, _, hts, hth, fun j hj => ?_⟩
    unfold Sys.Active
    rwa [hch]

theorem enqueue_thread (env : Env T O B) (s : Sys T O K B) (t : T) (o : O) (q : Qnum) :
    ((enqueue env s t o q).thread t).wchan = some o ∧ ∀ u, u ≠ t →
    (enqueue env s t o q).thread u = s.thread u := by
  obtain ⟨k, sobj, free, -, hth, -⟩ := enqueue_change env s t o q
  rw [hth]
  exact ⟨by simp [sleeper], fun u hu => update_of_ne hu _ _⟩

section

variable (ho : Own env things s)
include ho

theorem Own.enqueue_sobj (hrun : (s.thread t).wchan = none) (o : O) (q : Qnum) (hk : s.Active k) :
    ((enqueue env s t o q).ts k).sobj = (s.ts k).sobj := by
  cases hl : s.lookup env o with
  | none =>
    have hne : k ≠ (s.thread t).ts := fun e => ho.ts_not_active hrun (e ▸ hk)
    rw [(enqueue_first hl).1, update_of_ne hne]
  | some k' =>
    rw [(enqueue_more hl).1, update_apply]
    split_ifs with h
    · rw [h]
      rfl
    · rfl

theorem Own.blocked (hrun : (s.thread t).wchan = none)
    (hthread : s'.thread = update s.thread t (sleeper env s t o q k)) (hother : ∀ j, j ≠ k →
      s'.ts j = s.ts j)
    (hqueue : (s'.ts k).sleepq =
      update (s.ts k).sleepq q (sleepqInsert (sleepOrder env s t) t ((s.ts k).sleepq q)))
    (hsobj : (s'.ts k).sobj = some o) (hactive : ∀ j, s'.Active j ↔ j = k ∨ s.Active j)
    (hplaces : Places things (place s')) (hchain : ∀ b j, j ∈ s'.chain b → j = k ∧
      b = env.bucket o ∨ j ≠ k ∧ j ∈ s.chain b)
    (hsame : s.Active k → (s.ts k).sobj = some o) (huniq : ∀ j, s.Active j → (s.ts j).sobj = some o → j = k)
    (hcount : (s.ts k).waiters = ((s.ts k).sleepq .writer).length + ((s.ts k).sleepq .reader).length)
    (hwaiters : (s'.ts k).waiters = (s.ts k).waiters + 1)
    (hfree : (s'.ts k).waiters = (s'.ts k).free.length + 1) : Own env things s' := by
  have hsq := ho.sleepq_none hrun
  have hself : s'.thread t = sleeper env s t o q k := by rw [hthread, update_self]
  have hth : ∀ u, u ≠ t → s'.thread u = s.thread u := fun u hu => by rw [hthread, update_of_ne hu]
  have hnot : ∀ j r, t ∉ (s.ts j).sleepq r := fun j r h => by
    rw [ho.queue, hsq] at h
    simp at h
  have hq : ∀ r, (s'.ts k).sleepq r = if r = q then sleepqInsert (sleepOrder env s t) t ((s.ts k).sleepq q)
      else (s.ts k).sleepq r := fun r => by rw [hqueue, update_apply]
  refine ⟨hplaces, fun b j hj => ?_, fun j j' o' hj hj' h1 h2 => ?_, fun j hj => ?_, fun j hj => ?_,
    fun u j r => ?_, fun j r => ?_, fun u j r hu => ?_, fun u hu => ?_⟩
  · rcases hchain b j hj with ⟨rfl, rfl⟩ | ⟨hjk, hj⟩
    · exact ⟨o, hsobj, rfl⟩
    · rw [hother j hjk]
      exact ho.sobj b j hj
  · -- another active turnstile is not one of this object
    have hk : ∀ i, i ≠ k → s'.Active i → (s'.ts i).sobj = some o' → o' = o → False :=
      fun i hi ha hs heq => by
      rw [hother i hi, heq] at hs
      exact hi (huniq i (((hactive i).1 ha).resolve_left hi) hs)
    by_cases hjk : j = k
    · subst hjk
      have ho' : o' = o := some.inj (h1.symm.trans hsobj)
      by_contra hne
      exact hk j' (fun e => hne e.symm) hj' h2 ho'
    by_cases hjk' : j' = k
    · subst hjk'
      exact (hk j hjk hj h1 (some.inj (h2.symm.trans hsobj))).elim
    · rw [hother j hjk] at h1
      rw [hother j' hjk'] at h2
      exact ho.uniq j j' o' (((hactive j).1 hj).resolve_left hjk)
        (((hactive j').1 hj').resolve_left hjk') h1 h2
  · by_cases hjk : j = k
    · subst hjk
      have hlen := (sleepqInsert_perm (sleepOrder env s t) t ((s.ts j).sleepq q)).length_eq
      rw [length_cons] at hlen
      rw [hwaiters, hcount, hq, hq]
      cases q with
      | writer => rw [if_pos rfl, if_neg (by simp)]; omega
      | reader => rw [if_neg (by simp), if_pos rfl]; omega
    · rw [hother j hjk]
      exact ho.count j (((hactive j).1 hj).resolve_left hjk)
  · have hjk : j ≠ k := fun e => hj ((hactive j).2 (.inl e))
    rw [hother j hjk]
    exact ho.idle j fun h => hj ((hactive j).2 (.inr h))
  · by_cases hu : u = t
    · subst hu
      rw [hself]
      by_cases hjk : j = k
      · subst hjk
        rw [hq]
        split_ifs with hr
        · simp [mem_sleepqInsert, sleeper, hr]
        · exact iff_of_false (hnot j r) (by simpa [sleeper] using fun e : q = r => hr e.symm)
      · rw [hother j hjk]
        exact iff_of_false (hnot j r) fun h => hjk (congrArg Prod.fst (some.inj h)).symm
    · rw [hth u hu, ← ho.queue]
      by_cases hjk : j = k
      · subst hjk
        rw [hq]
        split_ifs with hr
        · rw [mem_sleepqInsert, hr]
          simp [hu]
        · rfl
      · rw [hother j hjk]
  · by_cases hjk : j = k
    · subst hjk
      rw [hq]
      split
      · exact nodup_sleepqInsert (hnot j q) (ho.nodup j q)
      · exact ho.nodup j r
    · rw [hother j hjk]
      exact ho.nodup j r
  · by_cases hut : u = t
    · subst hut
      rw [hself] at hu ⊢
      cases hu
      exact ⟨rfl, (hactive k).2 (.inl rfl), hsobj.symm⟩
    rw [hth u hut] at hu ⊢
    obtain ⟨h1, h2, h3⟩ := ho.asleep u j r hu
    refine ⟨h1, (hactive j).2 (.inr h2), ?_⟩
    by_cases hjk : j = k
    · subst hjk
      rw [h3, hsobj, hsame h2]
    · rwa [hother j hjk]
  · by_cases hut : u = t
    · subst hut
      rw [hself] at hu
      exact absurd hu (by simp [sleeper])
    · rw [hth u hut] at hu ⊢
      exact ho.awake u hu

theorem Own.sleepq_nil (hk : ¬ s.Active k) (q : Qnum) : (s.ts k).sleepq q = [] := by
  refine eq_nil_iff_forall_not_mem.2 fun u hu => ?_
  exact hk (ho.asleep u k q ((ho.queue u k q).1 hu)).2.1

theorem Own.enqueue (hrun : (s.thread t).wchan = none) (o : O) (q : Qnum) :
    Own env things (enqueue env s t o q) := by
  have hown : place s (.own t) = [(s.thread t).ts] := by simp [place, hrun]
  cases hl : s.lookup env o with
  | none =>
    obtain ⟨hts, hth, hch⟩ := enqueue_first hl
    have hna := ho.ts_not_active hrun
    have hidle := ho.idle _ hna
    have hchain : ∀ b j, j ∈ (Turnstile.enqueue env s t o q).chain b ↔
        j = (s.thread t).ts ∧ b = env.bucket o ∨ j ∈ s.chain b := fun b j => by
      rw [hch, update_apply]
      split_ifs with hb
      · rw [mem_cons, hb]
        simp
      · simp [hb]
    refine ho.blocked hrun hth (fun j hj => by rw [hts, update_of_ne hj]) (by rw [hts, update_self]; rfl)
      (by rw [hts, update_self]; rfl) (fun j => ?_) ?_ (fun b j hj => ?_) (fun h => absurd h hna)
      (fun j hj hs => absurd hs (not_active_of_lookup ho hl hj)) ?_ (by rw [hts, update_self]; rfl) ?_
    · constructor
      · rintro ⟨b, hb⟩
        rcases (hchain b j).1 hb with ⟨h, -⟩ | h
        · exact .inl h
        · exact .inr ⟨b, h⟩
      · rintro (rfl | ⟨b, hb⟩)
        · exact ⟨_, (hchain _ _).2 (.inl ⟨rfl, rfl⟩)⟩
        · exact ⟨b, (hchain b j).2 (.inr hb)⟩
    · have hmove := ho.places.moveOne (p := .own t) (q := .chain (env.bucket o)) (by simp)
        (by rw [hown])
      convert hmove using 1
      funext p
      rw [moveOne_apply]
      cases p with
      | own u => by_cases hu : u = t <;> simp [place, hth, hu, sleeper]
      | free j => by_cases hj : j = (s.thread t).ts <;> simp [place, hts, hj, firstTs]
      | chain b => by_cases hb : b = env.bucket o <;> simp [place, hch, hb]
    · rcases (hchain b j).1 hj with h | h
      · exact .inl h
      · exact .inr ⟨fun e => hna ⟨b, e ▸ h⟩, h⟩
    · rw [ho.sleepq_nil hna, ho.sleepq_nil hna, hidle.1]
      rfl
    · rw [hts, update_self]
      simp [firstTs, hidle]
  | some k =>
    obtain ⟨hts, hth, hch⟩ := enqueue_more hl
    obtain ⟨hk, hs⟩ := lookup_some hl
    have hka : s.Active k := ⟨_, hk⟩
    have hactive : ∀ j, (Turnstile.enqueue env s t o q).Active j ↔ s.Active j := fun j => by
      unfold Sys.Active
      rw [hch]
    refine ho.blocked hrun hth (fun j hj => by rw [hts, update_of_ne hj]) (by rw [hts, update_self]; rfl)
      (by rw [hts, update_self]; exact hs) (fun j => ?_) ?_ (fun b j hj => ?_) (fun _ => hs)
      (fun j hj hs' => ho.uniq j k o hj hka hs' hs) (ho.count k hka).1 (by rw [hts, update_self]; rfl) ?_
    · rw [hactive]
      exact ⟨.inr, fun h => h.elim (fun e => e ▸ hka) id⟩
    · have hmove := ho.places.moveOne (p := .own t) (q := .free k) (by simp)
        (by rw [hown])
      convert hmove using 1
      funext p
      rw [moveOne_apply]
      cases p with
      | own u => by_cases hu : u = t <;> simp [place, hth, hu, sleeper]
      | free j => by_cases hj : j = k <;> simp [place, hts, hj, moreTs]
      | chain b => simp [place, hch]
    · rw [hch] at hj
      by_cases hjk : j = k
      · refine .inl ⟨hjk, ?_⟩
        obtain ⟨o', h1, h2⟩ := ho.sobj b j hj
        rw [hjk, hs] at h1
        rw [← h2, some.inj h1]
      · exact .inr ⟨hjk, hj⟩
    · rw [hts, update_self]
      simp [moreTs, (ho.count k hka).2]

end

theorem Inh.enqueue (hi : Inh s) (env : Env T O B) (t : T) (o : O) (q : Qnum) :
    Inh (Turnstile.enqueue env s t o q) := by
  obtain ⟨k, sobj, free, hts, hth, hactive⟩ := enqueue_change env s t o q
  refine hi.congr (fun u => ?_) (fun j => ?_) hactive
  · by_cases hu : u = t <;> simp [hth, hu, sleeper]
  · by_cases hj : j = k <;> simp [hts, hj]

end Osol.Turnstile
