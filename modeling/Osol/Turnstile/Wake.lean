import Osol.Turnstile.Moves

/-!
# Threads that wake

`turnstile_dequeue` gives a thread a turnstile to take with it: one that was stashed, or, if it is
the last one to wake, the one that it slept on.
-/

namespace Osol.Turnstile

open Lib Function List Sys

variable {T O K B : Type} {s s' : Sys T O K B} {t : T} {k : K} {env : Env T O B} {things : List K}
  {o : O} {q : Qnum} [DecidableEq T] [DecidableEq K] [DecidableEq B]

/-! ## `turnstile_dequeue` -/

/-- The turnstile that a thread leaves, with the list that it leaves there. -/
def leftTs (s : Sys T O K B) (t : T) (k : K) (q : Qnum) (free : List K) : Ts T O K :=
  { s.ts k with
    free := free
    waiters := (s.ts k).waiters - 1
    sleepq := update (s.ts k).sleepq q (((s.ts k).sleepq q).erase t) }

theorem dequeue_free (env : Env T O B) (hk : (s.thread t).ts = k) (hsq : (s.thread t).sleepq =
    some (k, q)) {c : K} {l : List K}
    (hfree : (s.ts k).free = c :: l) :
    (s.dequeue env t).ts = update s.ts k (leftTs s t k q l) ∧
    (s.dequeue env t).thread =
    update s.thread t { s.thread t with ts := c, wchan := none, sleepq := none } ∧
    (s.dequeue env t).chain = s.chain := by
  subst hk
  unfold Sys.dequeue Sys.detach
  simp only [hfree, Sys.sleepqDequeue, setTs_thread, setThread_thread, update_self, hsq]
  refine ⟨?_, ?_, ?_⟩
  · simp [leftTs]
  · simp
  · simp

theorem dequeue_last (env : Env T O B)
    (hk : (s.thread t).ts = k) (hsq : (s.thread t).sleepq = some (k, q))
    (hfree : (s.ts k).free = [])
    (hobj : (s.ts k).sobj = some o) :
    (s.dequeue env t).ts = update s.ts k { leftTs s t k q [] with inheritor := none } ∧
    (∀ u, (s.dequeue env t).thread u = { s.thread u with
        prioinv := if (s.ts k).inheritor = some u then Sys.unlinkTs k (s.thread u).prioinv else
          (s.thread u).prioinv
        wchan := if u = t then none else (s.thread u).wchan
        sleepq := if u = t then none else (s.thread u).sleepq }) ∧
    (s.dequeue env t).chain = update s.chain (env.bucket o) ((s.chain (env.bucket o)).erase k) := by
  subst hk
  unfold Sys.dequeue Sys.detach
  simp only [hfree, hobj]
  cases hinh : (s.ts (s.thread t).ts).inheritor with
  | none =>
    simp only [Sys.sleepqDequeue, setTs_thread, setChain_thread, hsq]
    refine ⟨?_, fun u => ?_, ?_⟩
    · simp [leftTs, hinh, hfree]
    · by_cases hu : u = t <;> simp [hu]
    · simp
  | some i =>
    have hth : ∀ u, (s.piTsdelete (s.thread t).ts i).1.thread u =
        { s.thread u with prioinv := if some i = some u
          then Sys.unlinkTs (s.thread t).ts (s.thread u).prioinv
          else (s.thread u).prioinv } := fun u => by
      by_cases hu : i = u
      · subst hu
        simp [Sys.piTsdelete]
      · simp [Sys.piTsdelete, hu, update_of_ne (Ne.symm hu)]
    have hsq' : ((s.piTsdelete (s.thread t).ts i).1.thread t).sleepq = some ((s.thread t).ts, q) :=
      by rw [hth, ← hsq]
    simp only [Sys.sleepqDequeue, setTs_thread, setChain_thread, hsq']
    refine ⟨?_, fun u => ?_, ?_⟩
    · simp [leftTs, hfree, Sys.piTsdelete]
    · by_cases hu : u = t
      · subst hu
        simp [hth]
      · simp [hth, hu]
    · simp [Sys.piTsdelete]

variable [DecidableEq O]

section

variable (ho : Own env things s) (hsq : (s.thread t).sleepq = some (k, q))
include ho hsq

theorem Own.woken (hwchan : (s'.thread t).wchan = none) (hself : (s'.thread t).sleepq = none)
    (hth : ∀ u, u ≠ t → (s'.thread u).ts = (s.thread u).ts ∧
      (s'.thread u).wchan = (s.thread u).wchan ∧ (s'.thread u).sleepq = (s.thread u).sleepq)
    (hother : ∀ j, j ≠ k → s'.ts j = s.ts j)
    (hqueue : (s'.ts k).sleepq = update (s.ts k).sleepq q (((s.ts k).sleepq q).erase t))
    (hobj : (s'.ts k).sobj = (s.ts k).sobj) (hwaiters : (s'.ts k).waiters = (s.ts k).waiters - 1)
    (hactive : ∀ j, j ≠ k → (s'.Active j ↔ s.Active j)) (hchain : ∀ b j, j ∈ s'.chain b → j ∈ s.chain b)
    (hplaces : Places things (place s'))
    (hfree : s'.Active k ∧ (s.ts k).free.length = (s'.ts k).free.length + 1 ∨
      ¬ s'.Active k ∧ (s.ts k).free = [] ∧ (s'.ts k).free = []) : Own env things s' := by
  obtain ⟨hk, hka, -⟩ := ho.asleep t k q hsq
  obtain ⟨hc1, hc2⟩ := ho.count k hka
  have hmem := (ho.queue t k q).2 hsq
  have hq : ∀ r, (s'.ts k).sleepq r =
    if r = q then ((s.ts k).sleepq q).erase t else (s.ts k).sleepq r := fun r => by
    rw [hqueue, update_apply]
  have hsub : ∀ j, s'.Active j → s.Active j := fun j ⟨b, hb⟩ => ⟨b, hchain b j hb⟩
  have hnotmem : ∀ j r, t ∉ (s'.ts j).sleepq r := fun j r h => by
    by_cases hjk : j = k
    · subst hjk
      rw [hq] at h
      split at h
      · exact (ho.nodup j q).not_mem_erase h
      · rename_i hr
        rw [ho.queue, hsq] at h
        exact hr (congrArg Prod.snd (Option.some.inj h)).symm
    · rw [hother j hjk, ho.queue, hsq] at h
      exact hjk (congrArg Prod.fst (Option.some.inj h)).symm
  have hmem' : ∀ u, u ≠ t → ∀ j r, u ∈ (s'.ts j).sleepq r ↔ u ∈ (s.ts j).sleepq r := fun u hu j r => by
    by_cases hjk : j = k
    · subst hjk
      rw [hq]
      split
      · rename_i hr
        rw [mem_erase_of_ne hu, hr]
      · rfl
    · rw [hother j hjk]
  have hsobj : ∀ j, (s'.ts j).sobj = (s.ts j).sobj := fun j => by
    by_cases hjk : j = k
    · rw [hjk, hobj]
    · rw [hother j hjk]
  refine ⟨hplaces, fun b j hj => ?_, fun j j' o' hj hj' => ?_, fun j hj => ?_, fun j hj => ?_,
    fun u j r => ?_, fun j r => ?_, fun u j r hu => ?_, fun u hu => ?_⟩
  · rw [hsobj]
    exact ho.sobj b j (hchain b j hj)
  · rw [hsobj, hsobj]
    exact ho.uniq j j' o' (hsub j hj) (hsub j' hj')
  · by_cases hjk : j = k
    · subst hjk
      have hlen := length_erase_of_mem hmem
      have hpos := length_pos_of_mem hmem
      rcases hfree with ⟨-, hfree⟩ | ⟨hna, -⟩
      · rw [hwaiters, hc1, hq, hq]
        cases q with
        | writer => rw [if_pos rfl, if_neg (by simp), hlen]; omega
        | reader => rw [if_neg (by simp), if_pos rfl, hlen]; omega
      · exact absurd hj hna
    · rw [hother j hjk]
      exact ho.count j (hsub j hj)
  · by_cases hjk : j = k
    · subst hjk
      rcases hfree with ⟨ha, -⟩ | ⟨-, h1, h2⟩
      · exact absurd ha hj
      · rw [h1] at hc2
        exact ⟨by rw [hwaiters, hc2]; rfl, h2⟩
    · rw [hother j hjk]
      exact ho.idle j fun h => hj ((hactive j hjk).2 h)
  · by_cases hu : u = t
    · subst hu
      rw [hself]
      exact iff_of_false (hnotmem j r) (by simp)
    · rw [hmem' u hu, (hth u hu).2.2, ho.queue]
  · by_cases hjk : j = k
    · subst hjk
      rw [hq]
      split
      · exact (ho.nodup j q).sublist erase_sublist
      · exact ho.nodup j r
    · rw [hother j hjk]
      exact ho.nodup j r
  · by_cases hut : u = t
    · rw [hut, hself] at hu
      simp at hu
    obtain ⟨h1, h2, h3⟩ := hth u hut
    rw [h3] at hu
    obtain ⟨h4, h5, h6⟩ := ho.asleep u j r hu
    rw [h1, h2, hsobj]
    refine ⟨h4, ?_, h6⟩
    by_cases hjk : j = k
    · subst hjk
      rcases hfree with ⟨ha, -⟩ | ⟨-, hnil, -⟩
      · exact ha
      -- two threads, and no turnstile was stashed
      exfalso
      rw [hnil] at hc2
      have hmemu := (ho.queue u j r).2 hu
      have hle : ∀ a : Qnum, ((s.ts j).sleepq a).length ≤ 1 := fun a => by
        cases a <;> simp only [length_nil] at hc2 <;> omega
      by_cases hrq : r = q
      · subst hrq
        have hone : ((s.ts j).sleepq r).length = 1 := Nat.le_antisymm (hle r) (length_pos_of_mem hmem)
        obtain ⟨x, hx⟩ := length_eq_one_iff.1 hone
        rw [hx, mem_singleton] at hmem hmemu
        exact hut (hmemu.trans hmem.symm)
      · have hp1 := length_pos_of_mem hmem
        have hp2 := length_pos_of_mem hmemu
        cases q <;> cases r <;> simp only [length_nil] at hc2 <;> first | exact hrq rfl | omega
    · exact (hactive j hjk).2 h5
  · by_cases hut : u = t
    · rw [hut, hwchan]
    · obtain ⟨-, h2, h3⟩ := hth u hut
      rw [h3] at hu
      rw [h2]
      exact ho.awake u hu

theorem Own.dequeue : Own env things (s.dequeue env t) := by
  obtain ⟨hk, hka, hw⟩ := ho.asleep t k q hsq
  obtain ⟨b, hb⟩ := hka
  obtain ⟨o, hobj, rfl⟩ := ho.sobj b k hb
  have hka : s.Active k := ⟨_, hb⟩
  have hrun : (s.thread t).wchan ≠ none := by
    rw [hw, hobj]
    simp
  have hown : place s (.own t) = [] := by simp [place, hrun]
  cases hfree : (s.ts k).free with
  | cons c l =>
    obtain ⟨hts, hth, hch⟩ := dequeue_free env hk hsq hfree
    have hactive : ∀ j, (s.dequeue env t).Active j ↔ s.Active j := fun j => by
      unfold Sys.Active
      rw [hch]
    refine ho.woken hsq (by simp [hth]) (by simp [hth]) (fun u hu => by simp [hth, hu])
      (fun j hj => by rw [hts, update_of_ne hj]) (by rw [hts, update_self]; rfl)
      (by rw [hts, update_self]; rfl) (by rw [hts, update_self]; rfl) (fun j _ => hactive j)
      (fun b j hj => by rwa [hch] at hj) ?_ (.inl ⟨(hactive k).2 hka, by simp [hts, leftTs, hfree]⟩)
    have hmove := ho.places.moveOne (p := .free k) (q := .own t) (c := c) (l := l) (by simp)
      (by simp [place, hfree])
    convert hmove using 1
    funext p
    rw [moveOne_apply, hown]
    cases p with
    | own u => by_cases hu : u = t <;> simp [place, hth, hu]
    | free j => by_cases hj : j = k <;> simp [place, hts, hj, leftTs]
    | chain b => simp [place, hch]
  | nil =>
    obtain ⟨hts, hth, hch⟩ := dequeue_last env hk hsq hfree hobj
    have hnd : (s.chain (env.bucket o)).Nodup := ho.places.nodup (.chain (env.bucket o))
    have hmem : ∀ b j, j ∈ (s.dequeue env t).chain b ↔ j ∈ s.chain b ∧ j ≠ k := fun b j => by
      rw [hch, update_apply]
      split_ifs with h
      · rw [h, hnd.mem_erase_iff]
        exact and_comm
      · refine ⟨fun hj => ⟨hj, fun e => h ?_⟩, fun hj => hj.1⟩
        exact Place.chain.inj (ho.places.unique (.chain b) (.chain (env.bucket o)) k (e ▸ hj) hb)
    refine ho.woken hsq (by simp [hth]) (by simp [hth]) (fun u hu => by simp [hth, hu])
      (fun j hj => by rw [hts, update_of_ne hj]) (by rw [hts, update_self]; rfl)
      (by rw [hts, update_self]; rfl) (by rw [hts, update_self]; rfl) (fun j hj => ?_)
      (fun b j hj => ((hmem b j).1 hj).1) ?_ (.inr ⟨?_, hfree, by simp [hts, leftTs]⟩)
    · constructor
      · rintro ⟨b, hb⟩
        exact ⟨b, ((hmem b j).1 hb).1⟩
      · rintro ⟨b, hb⟩
        exact ⟨b, (hmem b j).2 ⟨hb, hj⟩⟩
    · have hperm : (place s (.chain (env.bucket o))).Perm (k :: (s.chain (env.bucket o)).erase k) :=
        perm_cons_erase hb
      have hmove := ho.places.moveOne (q := .own t) (by simp) hperm
      convert hmove using 1
      funext p
      rw [moveOne_apply, hown]
      cases p with
      | own u => by_cases hu : u = t <;> simp [place, hth, hu, hk]
      | free j => by_cases hj : j = k <;> simp [place, hts, hj, leftTs, hfree]
      | chain b => by_cases hb' : b = env.bucket o <;> simp [place, hch, hb']
    · rintro ⟨b, hb⟩
      exact ((hmem b k).1 hb).2 rfl

end

theorem Own.dequeue_inh (ho : Own env things s) (hi : Inh s)
    (hsq : (s.thread t).sleepq = some (k, q)) : Inh (s.dequeue env t) := by
  obtain ⟨hk, hka, -⟩ := ho.asleep t k q hsq
  obtain ⟨b, hb⟩ := hka
  obtain ⟨o, hobj, rfl⟩ := ho.sobj b k hb
  cases hfree : (s.ts k).free with
  | cons c l =>
    obtain ⟨hts, hth, hch⟩ := dequeue_free env hk hsq hfree
    have h1 : ∀ u, ((s.dequeue env t).thread u).prioinv = (s.thread u).prioinv := fun u => by
      by_cases hu : u = t <;> simp [hth, hu]
    have h2 : ∀ j, ((s.dequeue env t).ts j).inheritor = (s.ts j).inheritor := fun j => by
      by_cases hj : j = k <;> simp [hts, hj, leftTs]
    refine hi.congr h1 h2 fun j hj => ?_
    unfold Sys.Active
    rwa [hch]
  | nil =>
    obtain ⟨hts, hth, hch⟩ := dequeue_last env hk hsq hfree hobj
    refine hi.remove (k := k) (fun u j => ?_) (fun u => ?_) (by simp [hts])
      (fun j hj => by simp [hts, hj]) (fun j hj => ?_)
    · rw [hth]
      split
      · rw [mem_unlinkTs]
      · rename_i h
        exact ⟨fun hj => ⟨hj, fun e => h ((hi.mem u k).1 (e ▸ hj))⟩, fun hj => hj.1⟩
    · rw [hth]
      split
      · exact (hi.nodup u).sublist (unlinkTs_sublist k _)
      · exact hi.nodup u
    rintro ⟨b, hb⟩
    refine ⟨b, ?_⟩
    rw [hch, update_apply]
    split_ifs with h
    · exact (mem_erase_of_ne hj).2 (h ▸ hb)
    · exact hb

end Osol.Turnstile
