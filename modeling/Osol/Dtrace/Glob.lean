import Mathlib

/-!
# Globs

`dtrace_match_glob`, which goes along string and pattern and calls itself only for a `*`, with each
suffix of the string but the empty one. What follows the `*` is not empty and does not begin with
another, and no such pattern matches the empty string.

A string is the list of its characters, without the NUL; `none` for a character is the NUL.
-/

namespace Osol.Dtrace.Glob

open Nat List

/-- `DTRACE_PROBEKEY_MAXDEPTH`. -/
def maxDepth : ℕ := 8

/-- `*p++`, and once more behind a backslash. -/
def unescape : List Char → Option (Char × List Char)
  | [] => none
  | c :: p => if c = '\\' then p.head?.map (·, p.tail) else some (c, p)

/-- An element of a bracket expression: what the range that ends with it begins with, if it ends
one, the character, and the rest. `lc` is the element before. -/
def element (lc : Option Char) : List Char → Option (Option Char × Char × List Char)
  | '-' :: p =>
    if lc.isSome ∧ p.head? ≠ some ']' then (unescape p).map fun r => (lc, r) else some (none, '-', p)
  | p => (unescape p).map fun r => (none, r)

theorem unescape_length {c : Char} {p q : List Char} (h : unescape p = some (c, q)) :
    q.length < p.length := by
  unfold unescape at h
  split at h
  · cases h
  · split at h
    · obtain ⟨c, hc, h⟩ := Option.map_eq_some_iff.1 h
      cases h
      rw [length_cons, length_tail]
      omega
    · cases h
      exact lt_succ_self _

theorem element_length {lc lo : Option Char} {c : Char} {p q : List Char}
    (h : element lc p = some (lo, c, q)) : q.length < p.length := by
  unfold element at h
  split at h
  · split at h
    · obtain ⟨r, hr, h⟩ := Option.map_eq_some_iff.1 h
      cases h
      exact lt_succ_of_lt (unescape_length hr)
    · cases h
      exact lt_succ_self _
  · obtain ⟨r, hr, h⟩ := Option.map_eq_some_iff.1 h
    cases h
    exact unescape_length hr

variable (le : Char → Char → Bool)

/-- The element is the character, or ends a range that has it. `le` compares two `char`s. -/
def hits (e : Option Char × Char) (x : Char) : Bool :=
  e.1.any (fun lo => le lo x && le x e.2) || x == e.2

/-- The loop over a bracket expression, `none` for `return (0)`: `ok` and what follows the `]`. -/
def bracketLoop (notflag : Bool) (s1 : Char) (lc : Option Char) (ok : Bool) (p : List Char) :
    Option (Bool × List Char) :=
  match _h : element lc p with
  | none => none
  | some (lo, c, q) =>
    if notflag && hits le (lo, c) s1 then none
    else if q.head? = some ']' then some (ok || notflag || hits le (lo, c) s1, q.tail)
    else bracketLoop notflag s1 (some c) (ok || notflag || hits le (lo, c) s1) q
termination_by p.length
decreasing_by exact element_length _h

def notflag (p : List Char) : Bool := p.head? == some '!'

/-- What follows a bracket expression that the character is right for, `none` for `return (0)`. -/
def bracket (s1 : Char) (p : List Char) : Option (List Char) :=
  ((bracketLoop le (notflag p) s1 none false (if notflag p then p.tail else p)).filter (·.1)).map (·.2)

/-- The cases of the `switch` other than `*`, which take one character of the string: the rest of
the pattern, `none` for `return (0)`. -/
def matchOne (s1 : Char) : List Char → Option (List Char)
  | '[' :: p => bracket le s1 p
  | '?' :: p => some p
  | p => ((unescape p).filter (·.1 == s1)).map (·.2)

/-- `for (s = olds; *s != '\0'; s++)`. -/
def starLoop (gs : List Char → ℤ) : List Char → ℤ
  | [] => 0
  | c :: s => if gs (c :: s) ≠ 0 then gs (c :: s) else starLoop gs s

/-- The function from `top` on, where `gs` is the call for a `*`. -/
def top (gs : List Char → List Char → ℤ) : List Char → List Char → ℤ
  | s, [] => if s = [] then 1 else 0
  | s, '*' :: p =>
    let p := p.dropWhile (· == '*')
    if p = [] then 1 else starLoop (fun s => gs s p) s
  | [], _ => 0
  | s1 :: s, p => match matchOne le s1 p with
    | none => 0
    | some p => top gs s p

/-- `n` is how much deeper the recursion may be. -/
def matchDepth : ℕ → List Char → List Char → ℤ
  | 0 => fun _ _ => -1
  | n + 1 => top le (matchDepth n)

/-- `none` is `NULL`. -/
def dtraceMatchGlob (s p : Option (List Char)) (depth : ℕ) : ℤ :=
  if depth > maxDepth then -1
  else match p with
    | none => 0
    | some p => matchDepth le (maxDepth + 1 - depth) (s.getD []) p

/-! ## What a pattern means -/

/-- A character as a pattern has it: itself, or any behind a backslash. -/
inductive Lit : List Char → Char → List Char → Prop where
  | chr {c p} : c ≠ '\\' → Lit (c :: p) c p
  | esc {c p} : Lit ('\\' :: c :: p) c p

/-- An element of a bracket expression behind the character `l`, if there is one: the characters it
stands for, its own, and the pattern behind it. A dash makes a range with the character before it,
but not at the beginning or the end. -/
inductive Element : Option Char → List Char → Set Char → Char → List Char → Prop where
  | chr {l c p q} : (∀ r, p ≠ '-' :: r) → Lit p c q → Element l p {c} c q
  | first {p} : Element none ('-' :: p) {'-'} '-' p
  | last {l p} : Element l ('-' :: ']' :: p) {'-'} '-' (']' :: p)
  | range {l c p q} : (∀ r, p ≠ ']' :: r) → Lit p c q →
      Element (some l) ('-' :: p) {x | le l x ∧ le x c ∨ x = c} c q

/-- The characters that the elements up to the `]` stand for, and the pattern behind it. -/
inductive Elements : Option Char → List Char → Set Char → List Char → Prop where
  | last {l p S c q} : Element le l p S c (']' :: q) → Elements l p S q
  | more {l p S c r T q} : Element le l p S c r → (∀ r', r ≠ ']' :: r') → Elements (some c) r T q →
      Elements l p (S ∪ T) q

/-- A pattern that begins with something for one character, which `x` is. -/
inductive One : List Char → Char → List Char → Prop where
  | chr {x p q} : (∀ r, p ≠ '[' :: r ∧ p ≠ '?' :: r ∧ p ≠ '*' :: r) → Lit p x q → One p x q
  | any {x p} : One ('?' :: p) x p
  | mem {x p S q} : (∀ r, p ≠ '!' :: r) → Elements le none p S q → x ∈ S → One ('[' :: p) x q
  | notMem {x p S q} : Elements le none p S q → x ∉ S → One ('[' :: '!' :: p) x q

inductive Matches : List Char → List Char → Prop where
  | nil : Matches [] []
  | one {p q x s} : One le p x q → Matches q s → Matches p (x :: s)
  | star {p s} (t : List Char) : Matches p s → Matches ('*' :: p) (t ++ s)

/-- So many nested `*` can be open while the string is matched with the pattern. -/
inductive Open : ℕ → List Char → List Char → Prop where
  | zero {p s} : Open 0 p s
  | one {n p q x s} : One le p x q → Open n q s → Open n p (x :: s)
  | star {n p s} (t : List Char) : Open n (p.dropWhile (· == '*')) s → Open (n + 1) ('*' :: p) (t ++ s)

variable {le} {x : Char} {p q s : List Char}

theorem unescape_iff {c : Char} : unescape p = some (c, q) ↔ Lit p c q := by
  constructor
  · intro h
    unfold unescape at h
    split at h
    · cases h
    · next d r =>
      split at h
      · next hd =>
        subst hd
        cases r with
        | nil => cases h
        | cons => cases h; exact .esc
      · next hd => cases h; exact .chr hd
  · rintro (h | _)
    · simp [unescape, h]
    · rfl

/-- What the loop tests for an element is what the element stands for. -/
theorem element_iff {lc : Option Char} {S : Set Char} {c : Char} :
    Element le lc p S c q ↔ ∃ lo, element lc p = some (lo, c, q) ∧ S = {x | hits le (lo, c) x} := by
  have hsing : {x | hits le (none, c) x} = {c} := by ext; simp [hits]
  constructor
  · rintro (⟨hp, h⟩ | _ | _ | ⟨hp, h⟩)
    · refine ⟨none, ?_, hsing.symm⟩
      rw [element]
      · simp [unescape_iff.2 h]
      · exact hp
    · exact ⟨none, by simp [element], hsing.symm⟩
    · exact ⟨none, by simp [element], hsing.symm⟩
    · next l p =>
      refine ⟨some l, ?_, by ext; simp [hits]⟩
      rw [element, if_pos ⟨rfl, fun hr => hp _ (eq_cons_of_mem_head? hr)⟩, unescape_iff.2 h]
      rfl
  · rintro ⟨lo, h, rfl⟩
    unfold element at h
    split at h
    · next r =>
      split at h
      · next hl =>
        obtain ⟨⟨d, r'⟩, hr, h⟩ := Option.map_eq_some_iff.1 h
        obtain ⟨l, rfl⟩ := Option.isSome_iff_exists.1 hl.1
        cases h
        have : {x | hits le (some l, c) x} = {x | le l x ∧ le x c ∨ x = c} := by ext; simp [hits]
        exact this ▸ .range (fun t ht => hl.2 (ht ▸ rfl)) (unescape_iff.1 hr)
      · next hl =>
        cases h
        rw [hsing]
        cases lc with
        | none => exact .first
        | some l =>
          cases q with
          | nil => simp at hl
          | cons d q =>
            obtain rfl : d = ']' := by simpa using hl
            exact .last
    · next hp =>
      obtain ⟨⟨d, r⟩, hr, h⟩ := Option.map_eq_some_iff.1 h
      cases h
      exact hsing ▸ .chr hp (unescape_iff.1 hr)

/-- The elements from the first one on, as the loop goes over them. -/
theorem elements_iff {lc : Option Char} {S : Set Char} : Elements le lc p S q ↔ ∃ lo c r,
    element lc p = some (lo, c, r) ∧ if r.head? = some ']' then S = {x | hits le (lo, c) x} ∧ q = r.tail
      else ∃ T, Elements le (some c) r T q ∧ S = {x | hits le (lo, c) x} ∪ T := by
  constructor
  · rintro (h | ⟨h, hr, hT⟩)
    · obtain ⟨lo, hel, rfl⟩ := element_iff.1 h
      exact ⟨lo, _, _, hel, by simp⟩
    · obtain ⟨lo, hel, rfl⟩ := element_iff.1 h
      refine ⟨lo, _, _, hel, ?_⟩
      rw [if_neg fun hhead : _ = _ => hr _ (cons_head?_tail hhead).symm]
      exact ⟨_, hT, rfl⟩
  · rintro ⟨lo, c, r, h, hr⟩
    have hel : Element le lc p _ c r := element_iff.2 ⟨lo, h, rfl⟩
    split at hr
    · next hhead =>
      obtain ⟨rfl, rfl⟩ := hr
      rw [← cons_head?_tail hhead] at hel
      exact .last hel
    · next hhead =>
      obtain ⟨T, hT, rfl⟩ := hr
      exact .more hel (fun t ht => hhead (ht ▸ rfl)) hT

theorem bracketLoop_iff {n : Bool} {lc : Option Char} {ok b : Bool} :
    bracketLoop le n x lc ok p = some (b, q) ↔
      ∃ S, Elements le lc p S q ∧ (n → x ∉ S) ∧ (b ↔ ok ∨ n ∨ x ∈ S) := by
  fun_induction bracketLoop le n x lc ok p with
  | case1 lc ok p h =>
    refine iff_of_false nofun fun ⟨S, hS, _⟩ => ?_
    obtain ⟨lo, c, r, h', -⟩ := elements_iff.1 hS
    simp [h] at h'
  | case2 lc ok p lo c r h hhit =>
    refine iff_of_false nofun fun ⟨S, hS, hn, _⟩ => ?_
    obtain ⟨lo, c, r, h', hr⟩ := elements_iff.1 hS
    cases h.symm.trans h'
    have hx : x ∉ S := hn (by simp_all)
    split at hr
    · simp_all
    · obtain ⟨T, -, rfl⟩ := hr
      simp_all
  | case3 lc ok p lo c r h hhit hr =>
    constructor
    · rintro ⟨⟩
      exact ⟨_, elements_iff.2 ⟨lo, c, r, h, by rw [if_pos hr]; exact ⟨rfl, rfl⟩⟩,
        by simpa using hhit, by simp [or_assoc]⟩
    · rintro ⟨S, hS, hn, hb⟩
      obtain ⟨_, _, _, h', hr'⟩ := elements_iff.1 hS
      cases h.symm.trans h'
      rw [if_pos hr] at hr'
      obtain ⟨rfl, rfl⟩ := hr'
      obtain rfl : (ok || n || hits le (lo, c) x) = b :=
        Bool.eq_iff_iff.2 (by simpa [or_assoc] using hb.symm)
      rfl
  | case4 lc ok p lo c r h hhit hr ih =>
    rw [ih]
    constructor
    · rintro ⟨T, hT, hn, hb⟩
      refine ⟨_, elements_iff.2 ⟨lo, c, r, h, by rw [if_neg hr]; exact ⟨T, hT, rfl⟩⟩, fun h => ?_, ?_⟩
      · simp_all
      · rw [hb]
        cases n <;> simp [or_assoc]
    · rintro ⟨S, hS, hn, hb⟩
      obtain ⟨_, _, _, h', hr'⟩ := elements_iff.1 hS
      cases h.symm.trans h'
      rw [if_neg hr] at hr'
      obtain ⟨T, hT, rfl⟩ := hr'
      refine ⟨T, hT, fun h hx => hn h (.inr hx), ?_⟩
      rw [hb]
      cases n <;> simp [or_assoc]

theorem bracket_iff : bracket le x p = some q ↔
    ∃ S, Elements le none (if notflag p then p.tail else p) S q ∧ (x ∈ S ↔ ¬ notflag p) := by
  unfold bracket
  rw [Option.map_eq_some_iff]
  constructor
  · rintro ⟨⟨b, q⟩, h, rfl⟩
    obtain ⟨h, rfl⟩ := Option.filter_eq_some_iff.1 h
    obtain ⟨S, hS, hn, hb⟩ := bracketLoop_iff.1 h
    exact ⟨S, hS, by cases hp : notflag p <;> simp_all⟩
  · rintro ⟨S, hS, hn⟩
    refine ⟨(true, q), Option.filter_eq_some_iff.2 ⟨bracketLoop_iff.2 ⟨S, hS, ?_⟩, rfl⟩, rfl⟩
    cases hp : notflag p <;> simp_all

theorem bracket_iff_one : bracket le x p = some q ↔ One le ('[' :: p) x q := by
  rw [bracket_iff]
  by_cases hp : ∃ r, p = '!' :: r
  · obtain ⟨r, rfl⟩ := hp
    refine ⟨fun ⟨S, hS, hx⟩ => .notMem hS (by simpa [notflag] using hx), fun h => ?_⟩
    cases h with
    | chr hne => exact absurd rfl (hne _).1
    | mem hne => exact absurd rfl (hne r)
    | notMem hS hx => exact ⟨_, hS, by simpa [notflag] using hx⟩
  · have hne : ∀ r, p ≠ '!' :: r := fun r h => hp ⟨r, h⟩
    have hflag : notflag p = false := beq_eq_false_iff_ne.2 fun h => hne _ (eq_cons_of_mem_head? h)
    simp only [hflag, Bool.false_eq_true, if_false, not_false_iff, iff_true]
    refine ⟨fun ⟨S, hS, hx⟩ => .mem hne hS hx, fun h => ?_⟩
    cases h with
    | chr hne => exact absurd rfl (hne _).1
    | mem _ hS hx => exact ⟨_, hS, hx⟩
    | notMem => exact absurd rfl (hne _)

theorem matchOne_iff (hp : ∀ r, p ≠ '*' :: r) : matchOne le x p = some q ↔ One le p x q := by
  unfold matchOne
  split
  · exact bracket_iff_one
  · refine ⟨fun h => by cases h; exact .any, fun h => ?_⟩
    cases h with
    | chr hne => exact absurd rfl (hne _).2.1
    | any => rfl
  · next hset hany =>
    rw [Option.map_eq_some_iff]
    constructor
    · rintro ⟨⟨c, q'⟩, hfilter, rfl⟩
      obtain ⟨hesc, hx⟩ := Option.filter_eq_some_iff.1 hfilter
      obtain rfl : c = x := by simpa using hx
      exact .chr (fun r => ⟨hset r, hany r, hp r⟩) (unescape_iff.1 hesc)
    · intro h
      cases h with
      | chr _ h => exact ⟨(x, q), by simp [unescape_iff.2 h], rfl⟩
      | any => exact absurd rfl (hany _)
      | mem => exact absurd rfl (hset _)
      | notMem => exact absurd rfl (hset _)

/-- A call for a `*`: the first suffix for which it does not return 0. -/
theorem starLoop_cases (gs : List Char → ℤ) (s : List Char) :
    (∃ t s', s = t ++ s' ∧ gs s' ≠ 0 ∧ starLoop gs s = gs s') ∨
      starLoop gs s = 0 ∧ ∀ t s', s = t ++ s' → s' ≠ [] → gs s' = 0 := by
  induction s with
  | nil => exact .inr ⟨rfl, fun t s' h hne => absurd (List.append_eq_nil_iff.1 h.symm).2 hne⟩
  | cons c s ih =>
    rw [starLoop]
    split
    · next h => exact .inl ⟨[], c :: s, rfl, h, rfl⟩
    next h =>
    rcases ih with ⟨t, s', rfl, h'⟩ | ⟨h0, hall⟩
    · exact .inl ⟨c :: t, s', rfl, h'⟩
    · refine .inr ⟨h0, fun t s' hs hne => ?_⟩
      cases t with
      | nil =>
        obtain rfl : c :: s = s' := hs
        exact not_not.1 h
      | cons d t => exact hall t s' (cons.inj hs).2 hne

theorem not_one_star : ¬ One le ('*' :: p) x q := by
  intro h
  cases h with
  | chr hne => exact (hne p).2.2 rfl

theorem matches_star : Matches le ('*' :: p) s ↔ ∃ t s', s = t ++ s' ∧
    Matches le (p.dropWhile (· == '*')) s' := by
  have hcases : ∀ {p s}, Matches le ('*' :: p) s ↔ ∃ t s', s = t ++ s' ∧ Matches le p s' := by
    refine fun {p s} => ⟨fun h => ?_, fun ⟨t, s', hs, h⟩ => hs ▸ .star t h⟩
    cases h with
    | one h => exact absurd h not_one_star
    | star t h => exact ⟨t, _, rfl, h⟩
  induction p generalizing s with
  | nil => exact hcases
  | cons c p ih =>
    by_cases hc : c = '*'
    · subst hc
      rw [hcases]
      simp only [ih, dropWhile_cons, beq_self_eq_true, if_true]
      constructor
      · rintro ⟨t, _, rfl, t', s', rfl, h⟩
        exact ⟨t ++ t', s', (append_assoc t t' s').symm, h⟩
      · rintro ⟨t, s', rfl, h⟩
        exact ⟨t, s', rfl, [], s', rfl, h⟩
    · rw [hcases, dropWhile_cons, if_neg (by simpa using hc)]

theorem not_matches_nil (hne : p ≠ []) (hp : ∀ q, p ≠ '*' :: q) : ¬ Matches le p [] := by
  generalize hs : [] = s
  rintro (_ | ⟨_, _⟩ | ⟨_, _⟩)
  · exact hne rfl
  · cases hs
  · exact hp _ rfl

theorem matches_cons (hp : ∀ q, p ≠ '*' :: q) :
    Matches le p (x :: s) ↔ ∃ q, matchOne le x p = some q ∧ Matches le q s := by
  refine ⟨fun h => ?_, fun ⟨q, hq, h⟩ => .one ((matchOne_iff hp).1 hq) h⟩
  generalize hs : x :: s = s' at h
  cases h with
  | nil => cases hs
  | one hone h =>
    cases hs
    exact ⟨_, (matchOne_iff hp).2 hone, h⟩
  | star t h => exact absurd rfl (hp _)

def Says (le : Char → Char → Bool) (n : ℕ) (s p : List Char) (r : ℤ) : Prop :=
  (0 < r → Matches le p s) ∧ (r = 0 → ¬ Matches le p s) ∧ (r < 0 → Open le n p s)

theorem top_says {n : ℕ} {gs : List Char → List Char → ℤ} (hgs : ∀ s p, Says le n s p (gs s p))
    (s p : List Char) : Says le (n + 1) s p (top le gs s p) := by
  have hzero : ∀ {s p}, ¬ Matches le p s → Says le (n + 1) s p 0 := fun h => ⟨nofun, fun _ => h, nofun⟩
  fun_induction top le gs s p with
  | case1 => exact ⟨fun _ => .nil, nofun, nofun⟩
  | case2 s hs =>
    refine hzero fun h => ?_
    cases h with
    | nil => exact hs rfl
    | one h =>
      cases h with
      | chr _ h => cases h
  | case3 s p p' hp =>
    have hnil : Matches le p' [] := by
      rw [hp]
      exact .nil
    exact ⟨fun _ => matches_star.2 ⟨s, [], (append_nil s).symm, hnil⟩, nofun, nofun⟩
  | case4 s p p' hp =>
    have hstar : ∀ q, p' ≠ '*' :: q := fun q h => by
      have := head?_dropWhile_not (· == '*') p
      simp_all [p']
    rcases starLoop_cases (fun s => gs s p') s with ⟨t, s', rfl, hne, hr⟩ | ⟨hr, hall⟩
    · rw [hr]
      refine ⟨fun h => matches_star.2 ⟨t, s', rfl, (hgs s' p').1 h⟩, fun h => absurd h hne, fun h => ?_⟩
      exact .star t ((hgs s' p').2.2 h)
    · rw [hr]
      refine hzero fun h => ?_
      obtain ⟨t, s', hs, h⟩ := matches_star.1 h
      by_cases hne : s' = []
      · exact not_matches_nil hp hstar (hne ▸ h)
      · exact (hgs s' p').2.1 (hall t s' hs hne) h
  | case5 p hne hp => exact hzero (not_matches_nil hne hp)
  | case6 x s p hne hp hone =>
    refine hzero fun h => ?_
    obtain ⟨q, hq, -⟩ := (matches_cons hp).1 h
    simp [hone] at hq
  | case7 x s p hne hp q hone ih =>
    have hiff : Matches le p (x :: s) ↔ Matches le q s := by
      rw [matches_cons hp, hone]
      simp
    unfold Says
    rw [hiff]
    exact ⟨ih.1, ih.2.1, fun h => .one ((matchOne_iff hp).1 hone) (ih.2.2 h)⟩

theorem matchDepth_says (n : ℕ) (s p : List Char) : Says le n s p (matchDepth le n s p) := by
  induction n generalizing s p with
  | zero => exact ⟨nofun, nofun, fun _ => .zero⟩
  | succ n ih => exact top_says ih s p

/-- The result is positive if the string matches, zero if it does not, and negative only if more
than `maxDepth` nested `*` are open. -/
theorem dtraceMatchGlob_spec (le : Char → Char → Bool) (s : Option (List Char)) (p : List Char) :
    (0 < dtraceMatchGlob le s (some p) 0 → Matches le p (s.getD [])) ∧
    (dtraceMatchGlob le s (some p) 0 = 0 → ¬ Matches le p (s.getD [])) ∧
    (dtraceMatchGlob le s (some p) 0 < 0 → Open le (maxDepth + 1) p (s.getD [])) :=
  matchDepth_says (maxDepth + 1) (s.getD []) p

end Osol.Dtrace.Glob
