import Osol.Dtrace.Dynvar

/-!
# Dynamic variables as a map

A chunk is always on one list. Those on the hash chains are the variables: under the hash of its
keys each is found, and no two have the same keys. The state word only says that other CPUs have
no chunks to give if that is so, but for the time in which a cleaning has made chunks clean and
has not said so yet.
-/

namespace Osol.Dynvar

open Osol.Lib Osol.Dtrace Function List Nat Option

variable {d d' : Dstate} {keys : List KeyData} {c : ℕ}

/-! ## Keys -/

/-- The variable on a chain with these keys. -/
def toMap (d : Dstate) (keys : List KeyData) : Option ℕ :=
  (d.lists (.chain (bucketOf d keys))).find? fun c => (d.dvar c).keys = keys

/-- The chunks are in the space above the hash table, and do not overlap. -/
structure Layout (chunks : List ℕ) (d : Dstate) : Prop where
  inside : ∀ c ∈ chunks, d.base + d.hashsize * dynhashSize ≤ c ∧ c + d.chunksize ≤ d.base + d.size
  apart : ∀ c ∈ chunks, ∀ c' ∈ chunks, c ≠ c' → c + d.chunksize ≤ c' ∨ c' + d.chunksize ≤ c

/-- The lists and the table are in order. -/
structure Good (chunks : List ℕ) (d : Dstate) : Prop where
  layout : Layout chunks d
  places : Places chunks d.lists
  hashsize : 0 < d.hashsize
  chain : ∀ b c, c ∈ d.lists (.chain b) →
    (d.dvar c).hashval = hashOf (d.dvar c).keys ∧ b = bucketOf d (d.dvar c).keys
  distinct : ∀ b c c', c ∈ d.lists (.chain b) → c' ∈ d.lists (.chain b) →
    (d.dvar c).keys = (d.dvar c').keys → c = c'
  lock : ∀ b, d.lock b % 2 = 0

/-- No CPU has a chunk to give. -/
def Exhausted (ncpu : ℕ) (d : Dstate) : Prop :=
  ∀ i < ncpu, d.lists (.free i) = [] ∧ d.lists (.clean i) = []

/-! ## The map -/

section Map

variable {chunks : List ℕ} (h : Good chunks d)
include h

theorem Good.toMap_eq_some :
    toMap d keys = some c ↔ (∃ b, c ∈ d.lists (.chain b)) ∧ (d.dvar c).keys = keys := by
  constructor
  · intro hc
    have hk := List.find?_some hc
    exact ⟨⟨_, List.mem_of_find?_eq_some hc⟩, of_decide_eq_true hk⟩
  rintro ⟨⟨b, hb⟩, hk⟩
  obtain rfl : b = bucketOf d keys := hk ▸ (h.chain b c hb).2
  unfold toMap
  cases hf : (d.lists (.chain (bucketOf d keys))).find? fun c => (d.dvar c).keys = keys with
  | none => exact absurd (decide_eq_true hk) (List.find?_eq_none.1 hf c hb)
  | some c' =>
    have hk' := List.find?_some hf
    rw [h.distinct _ c c' hb (List.mem_of_find?_eq_some hf) (hk.trans (of_decide_eq_true hk').symm)]

theorem Good.not_chain {p : Place} (hp : c ∈ d.lists p) (hne : ∀ b, p ≠ .chain b) (b : ℕ) :
    c ∉ d.lists (.chain b) := fun hb => hne b (h.places.unique p (.chain b) c hp hb)

theorem Good.insert {cpu : ℕ} {rest : List ℕ} (hfree : d.lists (.free cpu) = c :: rest)
    (hnone : toMap d keys = none) (data : ℕ) :
    Good chunks { d with
      lists := moveOne d.lists (.free cpu) (.chain (bucketOf d keys)) c rest
      dvar := update d.dvar c ⟨hashOf keys, keys, data⟩ } ∧
    toMap { d with
      lists := moveOne d.lists (.free cpu) (.chain (bucketOf d keys)) c rest
      dvar := update d.dvar c ⟨hashOf keys, keys, data⟩ } =
      update (toMap d) keys (some c) := by
  have hperm : (d.lists (.free cpu)).Perm (c :: rest) := hfree ▸ List.Perm.refl _
  have hc : c ∈ d.lists (.free cpu) := by rw [hfree]; exact mem_cons_self
  have hmem := fun b x => mem_moveOne (r := Place.chain b) (x := x) h.places
    (show Place.free cpu ≠ .chain (bucketOf d keys) from nofun) hperm
  have hnot := h.not_chain hc nofun
  have hother : ∀ x, x ≠ c → update d.dvar c ⟨hashOf keys, keys, data⟩ x = d.dvar x :=
    fun x hx => update_of_ne hx _ _
  have hkeys : ∀ b x, x ∈ d.lists (.chain b) → (d.dvar x).keys ≠ keys := fun b x hx hk => by
    rw [h.toMap_eq_some.2 ⟨⟨b, hx⟩, hk⟩] at hnone
    cases hnone
  have hgood : Good chunks { d with
      lists := moveOne d.lists (.free cpu) (.chain (bucketOf d keys)) c rest
      dvar := update d.dvar c ⟨hashOf keys, keys, data⟩ } := by
    refine ⟨{ h.layout with }, h.places.moveOne nofun hperm, h.hashsize,
      fun b x hx => ?_, fun b x y hx hy hxy => ?_, h.lock⟩
    · rcases (hmem b x).1 hx with ⟨rfl, hb⟩ | ⟨hxc, hx⟩
      · dsimp only
        rw [update_self]
        exact ⟨rfl, Place.chain.inj hb⟩
      · dsimp only
        rw [hother x hxc]
        exact h.chain b x hx
    · dsimp only at hxy
      rcases (hmem b x).1 hx with ⟨rfl, -⟩ | ⟨hxc, hx'⟩ <;>
        rcases (hmem b y).1 hy with ⟨rfl, -⟩ | ⟨hyc, hy'⟩
      · rfl
      · rw [update_self, hother y hyc] at hxy
        exact absurd hxy.symm (hkeys b y hy')
      · rw [update_self, hother x hxc] at hxy
        exact absurd hxy (hkeys b x hx')
      · rw [hother x hxc, hother y hyc] at hxy
        exact h.distinct b x y hx' hy' hxy
  refine ⟨hgood, funext fun k => ext fun x => ?_⟩
  rw [hgood.toMap_eq_some]
  dsimp only
  by_cases hxc : x = c
  · subst hxc
    rw [update_self]
    by_cases hk : k = keys
    · rw [hk, update_self]
      simp only [and_true, iff_true]
      exact ⟨bucketOf d keys, (hmem _ x).2 (.inl ⟨rfl, rfl⟩)⟩
    · rw [update_of_ne hk]
      refine ⟨fun h' => absurd h'.2.symm hk, fun h' => ?_⟩
      obtain ⟨⟨b, hb⟩, -⟩ := h.toMap_eq_some.1 h'
      exact absurd hb (hnot b)
  · rw [hother x hxc]
    have hch : (∃ b, x ∈ moveOne d.lists (.free cpu) (.chain (bucketOf d keys)) c rest (.chain b)) ↔
        ∃ b, x ∈ d.lists (.chain b) := by
      refine exists_congr fun b => ?_
      rw [hmem b x]
      exact ⟨fun h' => (h'.resolve_left fun h'' => hxc h''.1).2, fun h' => .inr ⟨hxc, h'⟩⟩
    rw [hch, ← h.toMap_eq_some]
    by_cases hk : k = keys
    · rw [hk, update_self, hnone]
      exact ⟨nofun, fun h' => absurd (some.inj h').symm hxc⟩
    · rw [update_of_ne hk]

theorem Good.remove (me : ℕ) (hsome : toMap d keys = some c) : Good chunks (deallocate me keys c d) ∧
      toMap (deallocate me keys c d) = update (toMap d) keys none := by
  have hc : c ∈ d.lists (.chain (bucketOf d keys)) := List.mem_of_find?_eq_some hsome
  have hck : (d.dvar c).keys = keys := (h.toMap_eq_some.1 hsome).2
  have hperm := perm_cons_erase hc
  have hmem := fun b x => mem_moveOne (r := Place.chain b) (x := x) h.places
    (show Place.chain (bucketOf d keys) ≠ .dirty me from nofun) hperm
  have hiff : ∀ b x, x ∈ (deallocate me keys c d).lists (.chain b) ↔ x ≠ c ∧ x ∈ d.lists (.chain b) := by
    intro b x
    refine (hmem b x).trans ⟨fun h' => ?_, .inr⟩
    exact h'.resolve_left fun h'' => nomatch h''.2
  have hother : ∀ x, x ≠ c → (deallocate me keys c d).dvar x = d.dvar x := fun x hx => update_of_ne hx _ _
  have hgood : Good chunks (deallocate me keys c d) := by
    refine ⟨{ h.layout with }, h.places.moveOne nofun hperm, h.hashsize,
      fun b x hx => ?_, fun b x y hx hy hxy => ?_, fun b => ?_⟩
    · obtain ⟨hxc, hx⟩ := (hiff b x).1 hx
      rw [hother x hxc]
      exact h.chain b x hx
    · obtain ⟨hxc, hx⟩ := (hiff b x).1 hx
      obtain ⟨hyc, hy⟩ := (hiff b y).1 hy
      rw [hother x hxc, hother y hyc] at hxy
      exact h.distinct b x y hx hy hxy
    have hl := h.lock b
    unfold deallocate
    dsimp only
    by_cases hb : b = bucketOf d keys
    · rw [hb] at hl ⊢
      rw [update_self]
      omega
    · rwa [update_of_ne hb]
  refine ⟨hgood, funext fun k => ext fun x => ?_⟩
  rw [hgood.toMap_eq_some]
  simp only [hiff]
  by_cases hk : k = keys
  · rw [hk, update_self]
    refine ⟨fun h' => ?_, nofun⟩
    obtain ⟨⟨b, hxc, hx⟩, hxk⟩ := h'
    rw [hother x hxc] at hxk
    obtain rfl : b = bucketOf d keys := hxk ▸ (h.chain b x hx).2
    exact absurd (h.distinct _ x c hx hc (hxk.trans hck.symm)) hxc
  rw [update_of_ne hk, h.toMap_eq_some]
  constructor
  · rintro ⟨⟨b, hxc, hx⟩, hxk⟩
    rw [hother x hxc] at hxk
    exact ⟨⟨b, hx⟩, hxk⟩
  · rintro ⟨⟨b, hx⟩, hxk⟩
    have hxc : x ≠ c := by
      rintro rfl
      exact hk (hxk.symm.trans hck)
    exact ⟨⟨b, hxc, hx⟩, by rw [hother x hxc]; exact hxk⟩

theorem Good.frame {lists : Place → List ℕ} (state : DsState) (drops : DropKind → ℕ → ℕ)
    (hp : Places chunks lists) (hc : ∀ b, lists (.chain b) = d.lists (.chain b)) :
    Good chunks { d with lists := lists, state := state, drops := drops } ∧
      toMap { d with lists := lists, state := state, drops := drops } = toMap d := by
  refine ⟨⟨{ h.layout with }, hp, h.hashsize, fun b c hcb => ?_, fun b c c' hcb hcb' => ?_, h.lock⟩,
    funext fun k => ?_⟩
  · exact h.chain b c (hc b ▸ hcb)
  · exact h.distinct b c c' (hc b ▸ hcb) (hc b ▸ hcb')
  · show (lists (.chain (bucketOf d k))).find? _ = _
    rw [hc]
    rfl

theorem Good.unlock (b : ℕ) (hb : d.lock b % 2 = 0) :
    Good chunks { d with lock := update d.lock b (d.lock b + 2) } := by
  refine { h with layout := { h.layout with }, lock := fun b' => ?_ }
  dsimp only
  by_cases hbb : b' = b
  · rw [hbb, update_self]
    omega
  · rw [update_of_ne hbb]
    exact h.lock b'

end Map

/-! ## The search for a chunk -/

section Find

variable {ncpu me : ℕ}

end Find

/-! ## Operations -/

/-- A hash chain of the table, or a list of a CPU. -/
def Place.Home (ncpu hashsize : ℕ) : Place → Prop
  | .chain b => b < hashsize
  | .free i | .dirty i | .rinsing i | .clean i => i < ncpu

/-- The state word and the lists that are being cleaned. -/
structure Inv (ncpu : ℕ) (chunks : List ℕ) (s : Sys) : Prop where
  good : Good chunks s.dstate
  home : ∀ p c, c ∈ s.dstate.lists p → p.Home ncpu s.dstate.hashsize
  state : s.dstate.state ≠ .clean → s.cleaner ≠ .cleaned → Exhausted ncpu s.dstate
  rinsing : s.cleaner ≠ .rinsed → ∀ i < ncpu, s.dstate.lists (.rinsing i) = []
  clean : ∀ i < ncpu, s.dstate.lists (.rinsing i) ≠ [] → s.dstate.lists (.clean i) = []

/-- One counter of the CPU has gone up by one. -/
def OneDrop (me : ℕ) (d d' : Dstate) : Prop :=
  ∃ kind, d'.drops = update d.drops kind
    (update (d.drops kind) me (d.drops kind me + 1))

/-- The operation as one on a map: what is returned, and what the map is then. -/
inductive Refines (ncpu me : ℕ) (keys : List KeyData) (dsize : ℕ) (s : Sys) :
    DynvarOp → Option ℕ → Dstate → Prop where
  | noalloc : Refines ncpu me keys dsize s .noalloc (toMap s.dstate keys) s.dstate
  | dealloc (d : Dstate) : toMap d = update (toMap s.dstate) keys none →
      d.drops = s.dstate.drops → Refines ncpu me keys dsize s .dealloc none d
  | found (c : ℕ) : toMap s.dstate keys = some c →
      Refines ncpu me keys dsize s .alloc (some c) s.dstate
  | new (c : ℕ) (d : Dstate) : toMap s.dstate keys = none → (∀ k, toMap s.dstate k ≠ some c) →
      toMap d = update (toMap s.dstate) keys (some c) → d.drops = s.dstate.drops →
      Refines ncpu me keys dsize s .alloc (some c) d
  /-- The variable is too big, or there is no chunk, or the CPU has none of its own and a
  cleaning has not ended. -/
  | dropped (d : Dstate) : toMap s.dstate keys = none → toMap d = toMap s.dstate →
      OneDrop me s.dstate d →
      s.dstate.chunksize < needs keys dsize ∨ Exhausted ncpu s.dstate ∨
        s.cleaner = .cleaned ∧ s.dstate.state ≠ .clean ∧ s.dstate.lists (.free me) = [] ∧
          s.dstate.lists (.clean me) = [] →
      Refines ncpu me keys dsize s .alloc none d

section Ops

variable {ncpu me : ℕ} (dsize : ℕ) {chunks : List ℕ} {s : Sys} (hinv : Inv ncpu chunks s)
include hinv

end Ops

/-! ## Cleaning -/

section Clean

variable {ncpu : ℕ} {chunks : List ℕ}

end Clean

end Osol.Dynvar
