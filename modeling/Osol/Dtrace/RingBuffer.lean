import Osol.Dtrace.Buffer
import Osol.Lib.Entries

/-!
# Ring buffers

What is between the wrapped offset and the offset of a ring buffer, going around the end if the
buffer has wrapped, is padding and committed records. A reservation takes its room from the rest
of the buffer, after it has moved the wrapped offset if it has to. So it may be given up, unless
it went around the end and has moved the wrapped offset past everything that was committed:
`dtb_offset` then still says that the bytes at the top of the buffer are records.
-/

namespace Osol.TraceBuf

open Osol.Lib List Option Nat

variable {st : TraceState} {d d' : Buf} {lo hi size : ℕ} {rs rs' log : List (List Byte)}

/-! ## Entries of a buffer -/

/-- The sizes are in words, and a record fits in what is reserved for it. -/
structure Ecb.Ok (ecb : Ecb) : Prop where
  size : 4 ∣ ecb.size
  needed : 4 ∣ ecb.needed
  le : ecb.size ≤ ecb.needed
  alignment : ecb.alignment = 4 ∨ ecb.alignment = 8

structure TraceState.Ok (st : TraceState) : Prop where
  ecb : ∀ epid ecb, st.ecbOf epid = some ecb → ecb.Ok
  epids : st.ecbs.length < 2 ^ 32

/-- A word of padding, or a record. -/
def entryAt (st : TraceState) (d : Buf) (w : ℕ) : Option (ℕ × Option (List Byte)) :=
  if load st.endian d w 4 = dtraceEpidnone then some (4, none)
  else
    match st.ecbOf (load st.endian d w 4) with
    | none => none
    | some ecb => if ecb.size = 0 then none else some (ecb.size, some (bytesAt d w ecb.size))

theorem entryAt_eq_some {w n : ℕ} {o : Option (List Byte)} : entryAt st d w = some (n, o) ↔
    (load st.endian d w 4 = dtraceEpidnone ∧ n = 4 ∧ o = none) ∨
    ∃ ecb, load st.endian d w 4 ≠ dtraceEpidnone ∧ st.ecbOf (load st.endian d w 4) = some ecb ∧
      ecb.size ≠ 0 ∧ n = ecb.size ∧ o = some (bytesAt d w n) := by
  unfold entryAt
  split
  · simp [*, eq_comm]
  · cases st.ecbOf (load st.endian d w 4) <;> grind

theorem TraceState.Ok.four_le (hst : st.Ok) {epid : ℕ} {ecb : Ecb} (h : st.ecbOf epid = some ecb)
    (h0 : ecb.size ≠ 0) : 4 ≤ ecb.size := by
  have := (hst.ecb epid ecb h).size
  omega

variable {w : ℕ}

theorem entryAt_congr (hst : st.Ok) {n : ℕ} {o : Option (List Byte)}
    (h : entryAt st d w = some (n, o)) (hd : ∀ x, w ≤ x → x < w + n → d x = d' x) :
    entryAt st d' w = some (n, o) := by
  rw [entryAt_eq_some] at h ⊢
  rcases h with ⟨h0, rfl, rfl⟩ | ⟨ecb, h0, hecb, hs, rfl, rfl⟩
  · exact .inl ⟨by rw [← load_congr st.endian hd]; exact h0, rfl, rfl⟩
  · have h4 := hst.four_le hecb hs
    rw [← load_congr st.endian fun x h1 h2 => hd x h1 (by omega), ← bytesAt_congr hd]
    exact .inr ⟨ecb, h0, hecb, hs, rfl, rfl⟩

abbrev Parses (st : TraceState) (d : Buf) (lo hi : ℕ) (rs : List (List Byte)) : Prop :=
  Entries (entryAt st d) lo hi rs

theorem Parses.congr (hst : st.Ok) (h : Parses st d lo hi rs)
    (hd : ∀ x, lo ≤ x → x < hi → d x = d' x) : Parses st d' lo hi rs :=
  Entries.congr h fun _ _ _ h1 h2 he =>
    entryAt_congr hst he fun x hx1 hx2 => hd x (Nat.le_trans h1 hx1) (Nat.lt_of_lt_of_le hx2 h2)

theorem load_zero (e : Endian) (h : ∀ x, w ≤ x → x < w + 4 → d x = 0) : load e d w 4 = 0 := by
  have hz : load e (fun _ => 0) w 4 = 0 := by cases e <;> rfl
  rw [← hz]
  exact load_congr e h

theorem parses_zero (hle : lo ≤ hi) (hdvd : 4 ∣ hi - lo) (h : ∀ x, lo ≤ x → x < hi → d x = 0) :
    Parses st d lo hi [] := by
  obtain ⟨k, hk⟩ := hdvd
  induction k generalizing lo with
  | zero =>
    obtain rfl : lo = hi := by omega
    exact .nil lo
  | succ k ih =>
    have he : entryAt st d lo = some (4, none) := by
      unfold entryAt
      rw [load_zero st.endian fun x h1 h2 => h x h1 (by omega)]
      rfl
    exact .cons he (by omega) (ih (by omega) (fun x h1 h2 => h x (by omega) h2) (by omega))

/-! ## Padding -/

variable {align : ℕ}

theorem and_align {offs : ℕ} (ha : align = 4 ∨ align = 8) : offs &&& (align - 1) = offs % align := by
  rcases ha with rfl | rfl
  · exact and_two_pow_sub_one_eq_mod offs 2
  · exact and_two_pow_sub_one_eq_mod offs 3

theorem plow_spec (st : TraceState) {offs : ℕ} (ha : align = 4 ∨ align = 8) (h4 : 4 ∣ offs)
    (d : Buf) : ∃ d', plow st.endian align (align + 1) d offs = some (d', offs + offs % align) ∧
      (∀ x, x < offs ∨ offs + offs % align ≤ x → d' x = d x) ∧
      Parses st d' offs (offs + offs % align) [] ∧ (offs + offs % align) % align = 0 := by
  by_cases h0 : offs % align = 0
  · refine ⟨d, ?_, fun x _ => rfl, ?_, by rw [h0]; exact h0⟩
    · rw [plow, and_align ha, if_pos h0, h0, Nat.add_zero]
    · rw [h0]
      exact .nil offs
  -- With a word alignment there is nothing to do, so the alignment is 8.
  obtain rfl : align = 8 := by rcases ha with rfl | rfl <;> omega
  have h8 : offs % 8 = 4 := by omega
  have hload : load st.endian (store st.endian d offs 4 dtraceEpidnone) offs 4 = dtraceEpidnone :=
    load_store st.endian d offs (by decide)
  refine ⟨store st.endian d offs 4 dtraceEpidnone, ?_, fun x hx => ?_, ?_, by omega⟩
  · rw [plow, and_align ha, if_neg h0, h8]
    have hnext : (offs + 4) % 8 = 0 := by omega
    rw [if_neg (by decide), plow, and_align ha, if_pos hnext]
  · rw [h8] at hx
    exact store_apply_of_not hx
  · have he : entryAt st (store st.endian d offs 4 dtraceEpidnone) offs = some (4, none) := by
      unfold entryAt
      rw [if_pos hload]
    rw [h8]
    exact Entries.single he (by omega)

/-! ## The walk -/

/-- The records from each of these offsets on. -/
def Starts (st : TraceState) (d : Buf) (hi : ℕ) (rs : List (List Byte)) (reads : List ℕ) : Prop :=
  ∀ x ∈ reads, x < hi ∧ ∃ rs'', Parses st d x hi rs'' ∧ rs'' <:+ rs

/-- What the walk makes of a region of entries: it stops in it, or at the end of the buffer, or
it goes on behind it. -/
inductive Walked (st : TraceState) (d : Buf) (size limit lo hi : ℕ) (rs : List (List Byte))
    (n : ℕ) (res : Option (List ℕ × WalkEnd)) : Prop where
  | stop (reads : List ℕ) (w : ℕ) (rs' : List (List Byte)) : res = some (reads, .stop w) →
      lo ≤ w → w < hi → limit ≤ w → Parses st d w hi rs' → rs' <:+ rs →
      Starts st d hi rs reads → Walked st d size limit lo hi rs n res
  | wrap (reads : List ℕ) : hi = size → res = some (reads, .wrap) →
      Starts st d hi rs reads → Walked st d size limit lo hi rs n res
  | past (reads : List ℕ) (m : ℕ) : hi < size ∨ lo = hi → n ≤ m →
      res = (walkRecords st d size limit m hi).map (fun p => (reads ++ p.1, p.2)) →
      Starts st d hi rs reads → (∀ x rs'', Parses st d lo x rs'' → x < hi → x < limit) →
      Walked st d size limit lo hi rs n res

theorem walkRecords_entry {limit n m : ℕ} {o : Option (List Byte)} (hw : w < limit)
    (he : entryAt st d w = some (n, o)) (hn : 0 < n) (hsize : w + n ≤ size) :
    walkRecords st d size limit (m + 1) w = if w + n = size then some ([w], .wrap)
      else (walkRecords st d size limit m (w + n)).map fun p => (w :: p.1, p.2) := by
  have hlen : entrySize st (load st.endian d w 4) = some n := by
    unfold entrySize
    rcases entryAt_eq_some.1 he with ⟨h0, rfl, -⟩ | ⟨ecb, h0, hecb, -, rfl, -⟩
    · rw [if_pos h0]
    · rw [if_neg h0, hecb]
      rfl
  rw [walkRecords, if_neg (by omega)]
  rw [hlen]
  dsimp only [bind_eq_bind, bind_some]
  rw [if_neg (by omega)]
  split
  · rfl
  · cases walkRecords st d size limit m (w + n) <;> rfl

theorem walk_segment (limit : ℕ) (h : Parses st d lo hi rs) (hhi : hi ≤ size) :
    ∀ m n, hi - lo + n ≤ m → Walked st d size limit lo hi rs n
      (walkRecords st d size limit m lo) := by
  induction h with
  | nil lo =>
    intro m n hm
    refine .past [] m (.inr rfl) (by omega) ?_ nofun (fun x _ hx hlt => ?_)
    · cases walkRecords st d size limit m lo <;> rfl
    · have := hx.le
      omega
  | @cons lo hi k o rs he hk h ih =>
    intro m n hm
    have hle := h.le
    obtain ⟨m, rfl⟩ : ∃ m', m = m' + 1 := ⟨m - 1, by omega⟩
    have hparse : Parses st d lo hi (o.toList ++ rs) := .cons he hk h
    by_cases hlim : limit ≤ lo
    · refine .stop [] lo _ ?_ (Nat.le_refl _) (by omega) hlim hparse (suffix_refl _) nofun
      rw [walkRecords, if_pos hlim]
    rw [walkRecords_entry (by omega) he hk (by omega)]
    have hself : lo < hi ∧ ∃ rs'', Parses st d lo hi rs'' ∧ rs'' <:+ o.toList ++ rs :=
      ⟨by omega, _, hparse, suffix_refl _⟩
    split_ifs with hend
    · refine .wrap [lo] (by omega) rfl fun x hx => ?_
      rwa [mem_singleton.1 hx]
    have hreads : ∀ reads, Starts st d hi rs reads → Starts st d hi (o.toList ++ rs) (lo :: reads) := by
      intro reads hr x hx
      rcases mem_cons.1 hx with rfl | hx
      · exact hself
      · obtain ⟨h1, rs'', h2, h3⟩ := hr x hx
        exact ⟨h1, rs'', h2, h3.trans (suffix_append _ _)⟩
    cases ih hhi m n (by omega) with
    | stop reads w rs' heq h1 h2 h3 h4 h5 h6 =>
      refine .stop (lo :: reads) w rs' (by rw [heq]; rfl) (by omega) h2 h3 h4
        (h5.trans (suffix_append _ _)) (hreads reads h6)
    | wrap reads h1 heq h2 => exact .wrap (lo :: reads) h1 (by rw [heq]; rfl) (hreads reads h2)
    | past reads m' h1 h2 heq h3 h4 =>
      refine .past (lo :: reads) m' (.inl ?_) h2 ?_ (hreads reads h3) fun x rs'' hx hlt => ?_
      · omega
      · rw [heq]
        cases walkRecords st d size limit m' hi <;> rfl
      cases hx with
      | nil => omega
      | cons he' hk' hx' =>
        rw [he] at he'
        cases he'
        exact h4 x _ hx' hlt

/-! ## What a buffer holds -/

/-- The bytes that count are padding and records, the last that were committed. -/
inductive Holds (st : TraceState) (d : Buf) (size offs woffs : ℕ) (log : List (List Byte)) :
    Bool → Prop where
  /-- The buffer has not wrapped. -/
  | plain (rs : List (List Byte)) : Parses st d 0 offs rs → rs <:+ log →
      Holds st d size offs woffs log false
  /-- The records go around the end of the buffer. -/
  | around (rs rs' : List (List Byte)) : offs ≤ woffs → woffs < size → Parses st d woffs size rs →
      Parses st d 0 offs rs' → rs ++ rs' <:+ log → Holds st d size offs woffs log true
  /-- A reservation that went around the end was given up, or there is nothing left up to the
  end. -/
  | inside (rs : List (List Byte)) : woffs < offs → Parses st d woffs offs rs → rs <:+ log →
      Holds st d size offs woffs log true

def SameOutside (lo hi : ℕ) (d d' : Buf) : Prop := ∀ x, x < lo ∨ hi ≤ x → d' x = d x

variable {a b : ℕ}

theorem SameOutside.parses (hst : st.Ok) (hd : SameOutside a b d d') (h : Parses st d lo hi rs)
    (hab : hi ≤ a ∨ b ≤ lo) : Parses st d' lo hi rs := by
  refine h.congr hst fun x h1 h2 => (hd x ?_).symm
  omega

theorem SameOutside.trans {d'' : Buf} (h : SameOutside a b d d') (h' : SameOutside a b d' d'') :
    SameOutside a b d d'' := fun x hx => (h' x hx).trans (h x hx)

theorem SameOutside.mono {a' b' : ℕ} (h : SameOutside a b d d') (ha : a' ≤ a) (hb : b ≤ b') :
    SameOutside a' b' d d' := fun x hx => h x (by omega)

/-- The range from `a` on is free: it can be filled with records and committed, or left with
anything in it, but the latter only if `safe`. -/
structure Free (st : TraceState) (d : Buf) (size offs woffs : ℕ) (log : List (List Byte))
    (wrapped : Bool) (a room : ℕ) (safe : Prop) : Prop where
  le : a + room ≤ size
  commit : ∀ d' m rs, SameOutside a (a + room) d d' → m ≤ a + room → Parses st d' a m rs →
    Holds st d' size m woffs (log ++ rs) wrapped
  abandon : safe → ∀ d', SameOutside a (a + room) d d' → Holds st d' size offs woffs log wrapped

theorem suffix_append_right (h : rs <:+ log) (rs' : List (List Byte)) : rs ++ rs' <:+ log ++ rs' := by
  obtain ⟨t, rfl⟩ := h
  exact ⟨t, by simp⟩

section Free

variable {offs woffs room : ℕ} (hst : st.Ok)
include hst

theorem free_plain (h : Parses st d 0 offs rs) (hrs : rs <:+ log) (hle : offs + room ≤ size) :
    Free st d size offs woffs log false offs room True where
  le := hle
  commit := fun _ _ rs' hd _ hm => .plain (rs ++ rs')
    ((hd.parses hst h (.inl (Nat.le_refl _))).append hm) (suffix_append_right hrs rs')
  abandon := fun _ _ hd => .plain rs (hd.parses hst h (.inl (Nat.le_refl _))) hrs

theorem free_inside (h : Parses st d woffs offs rs) (hrs : rs <:+ log) (hlt : woffs < offs)
    (hle : offs + room ≤ size) : Free st d size offs woffs log true offs room True where
  le := hle
  commit := fun _ _ rs' hd _ hm => .inside (rs ++ rs') (Nat.lt_of_lt_of_le hlt hm.le)
    ((hd.parses hst h (.inl (Nat.le_refl _))).append hm) (suffix_append_right hrs rs')
  abandon := fun _ _ hd => .inside rs hlt (hd.parses hst h (.inl (Nat.le_refl _))) hrs

theorem free_around (h : Parses st d woffs size rs) (h' : Parses st d 0 offs rs')
    (hrs : rs ++ rs' <:+ log) (hle : offs + room ≤ woffs) (hw : woffs < size) :
    Free st d size offs woffs log true offs room True where
  le := by omega
  commit := fun _ m rs'' hd hm hp => by
    refine .around rs (rs' ++ rs'') (by omega) hw (hd.parses hst h (.inr hle))
      ((hd.parses hst h' (.inl (Nat.le_refl _))).append hp) ?_
    rw [← append_assoc]
    exact suffix_append_right hrs rs''
  abandon := fun _ _ hd => .around rs rs' (by omega) hw (hd.parses hst h (.inr hle))
    (hd.parses hst h' (.inl (Nat.le_refl _))) hrs

/-- Room at the top of the buffer. If it is given up, the records are those up to the old
offset. -/
theorem free_top (h : Parses st d woffs size rs) (hrs : rs <:+ log) (hle : room ≤ woffs)
    (hw : woffs < size) (hin : woffs < offs → ∃ rs', Parses st d woffs offs rs' ∧ rs' <:+ log) :
    Free st d size offs woffs log true 0 room (woffs < offs) where
  le := by omega
  commit := fun _ m rs' hd hm hp => .around rs rs' (by omega) hw
    (hd.parses hst h (.inr (by omega))) hp (suffix_append_right hrs rs')
  abandon := fun hlt _ hd => by
    obtain ⟨rs', h', hrs'⟩ := hin hlt
    exact .inside rs' hlt (hd.parses hst h' (.inr (by omega))) hrs'

end Free

theorem dvd_of_parses (hst : st.Ok) (h : Parses st d lo hi rs) : 4 ∣ hi - lo := by
  induction h with
  | nil lo => exact ⟨0, by omega⟩
  | @cons lo hi n o rs he _ h ih =>
    have hn : 4 ∣ n := by
      rcases entryAt_eq_some.1 he with ⟨-, rfl, -⟩ | ⟨ecb, -, hecb, -, rfl, -⟩
      · exact ⟨1, rfl⟩
      · exact (hst.ecb _ _ hecb).size
    have := h.le
    omega

/-! ## A reservation -/

/-- An EPID can be read here: it is the start of a word of padding or of a committed record. -/
def EntryStart (st : TraceState) (size : ℕ) (log : List (List Byte)) (p : Buf × ℕ) : Prop :=
  p.2 < size ∧ ∃ rs rs', Parses st p.1 p.2 size rs ∧ rs ++ rs' <:+ log

structure Ring (st : TraceState) (s : Traced) (d : Buf) : Prop where
  tomax : s.buf.tomax = some d
  ring : s.buf.flags.ring = true
  fill : s.buf.flags.fill = false
  inactive : s.buf.flags.inactive = false
  size : 8 ∣ s.buf.size
  offset : 4 ∣ s.buf.offset
  xamot : 4 ∣ s.buf.xamotOffset
  le : s.buf.offset ≤ s.buf.size
  holds : Holds st d s.buf.size s.buf.offset s.buf.xamotOffset s.log s.buf.flags.wrapped

structure Room (st : TraceState) (s : Traced) (needed : ℕ) (safe : Prop) (r : Reserved) (offs : ℕ)
    (d : Buf) : Prop where
  granted : r.offs = some offs
  tomax : r.buf.tomax = some d
  ring : r.buf.flags.ring = true
  fill : r.buf.flags.fill = false
  inactive : r.buf.flags.inactive = false
  size : r.buf.size = s.buf.size
  offset : 4 ∣ r.buf.offset
  offset_le : r.buf.offset ≤ s.buf.size
  xamot : 4 ∣ r.buf.xamotOffset
  dvd : 4 ∣ offs
  free : Free st d s.buf.size r.buf.offset r.buf.xamotOffset s.log r.buf.flags.wrapped offs needed safe
  reads : ∀ p ∈ r.reads, EntryStart st s.buf.size s.log p

theorem reserveOut_room {s : Traced} {d₀ : Buf} {buf : DtraceBuffer} {needed : ℕ} {safe : Prop}
    {reads : List (Buf × ℕ)} (hst : st.Ok) (hr : Ring st s d₀) (ha : align = 4 ∨ align = 8) (h4 : 4 ∣ a)
    (hflags : buf.flags = { s.buf.flags with wrapped := buf.flags.wrapped })
    (hsize : buf.size = s.buf.size) (hoff : 4 ∣ buf.offset) (hle : buf.offset ≤ s.buf.size)
    (hx : 4 ∣ buf.xamotOffset)
    (hfree : Free st d s.buf.size buf.offset buf.xamotOffset s.log buf.flags.wrapped a
      (needed + a % align) safe) (hreads : ∀ p ∈ reads, EntryStart st s.buf.size s.log p) :
    ∃ r offs d', reserveOut st buf d a needed align reads = some r ∧ Room st s needed safe r offs d' := by
  obtain ⟨d', heq, hsame, hpad, halign⟩ := plow_spec st ha h4 d
  have hfill : buf.flags.fill = false := by rw [hflags]; exact hr.fill
  refine ⟨⟨{ buf with tomax := some d' }, some (a + a % align), some (buf.xamotAddr, buf.size), reads⟩,
    a + a % align, d', ?_, rfl, rfl,
    by rw [hflags]; exact hr.ring, hfill,
    by rw [hflags]; exact hr.inactive, hsize, hoff, hle, hx, ?_, ?_, hreads⟩
  · unfold reserveOut
    rw [heq]
    dsimp only [bind_eq_bind, bind_some]
    rw [if_neg (by simp [hfill])]
  · rcases ha with rfl | rfl <;> omega
  -- The padding is part of what is free.
  have hd : SameOutside a (a + (needed + a % align)) d d' := fun x hx => hsame x (by omega)
  have hin : ∀ d'', SameOutside (a + a % align) (a + a % align + needed) d' d'' →
      SameOutside a (a + (needed + a % align)) d d'' := fun d'' h =>
    hd.trans (h.mono (by omega) (by omega))
  refine ⟨by have := hfree.le; omega, fun d'' m rs h hm hp => ?_, fun hs d'' h => ?_⟩
  · have hpad' : Parses st d'' a (a + a % align) [] := h.parses hst hpad (.inl (Nat.le_refl _))
    have := hfree.commit d'' m rs (hin d'' h) (by omega) (hpad'.append hp)
    exact this
  · exact hfree.abandon hs d'' (hin d'' h)

theorem walk_around (limit : ℕ) {woffs : ℕ} (h : Parses st d woffs size rs) (hw : woffs < size)
    (hrs : rs ++ rs' <:+ log) :
    ∃ reads last, walkRecords st d size limit (size + 1) woffs = some (reads, last) ∧
      (∀ x ∈ reads, EntryStart st size log (d, x)) ∧
      ∀ w, last = .stop w → limit ≤ w ∧ w < size ∧ ∃ rs'', Parses st d w size rs'' ∧
      rs'' ++ rs' <:+ log := by
  have hsuf : ∀ {rs''}, rs'' <:+ rs → rs'' ++ rs' <:+ log :=
    fun h' => (suffix_append_right h' rs').trans hrs
  have hstart : ∀ reads, Starts st d size rs reads → ∀ x ∈ reads, EntryStart st size log (d, x) := by
    intro reads hr x hx
    obtain ⟨h1, rs'', h2, h3⟩ := hr x hx
    exact ⟨h1, rs'', rs', h2, hsuf h3⟩
  cases walk_segment limit h (Nat.le_refl _) (size + 1) 0 (by omega) with
  | stop reads w rs'' heq _ h2 h3 h4 h5 h6 =>
    refine ⟨reads, .stop w, heq, hstart reads h6, fun w' hw' => ?_⟩
    cases hw'
    exact ⟨h3, h2, rs'', h4, hsuf h5⟩
  | wrap reads _ heq h6 => exact ⟨reads, .wrap, heq, hstart reads h6, nofun⟩
  | past _ _ h1 _ _ _ _ => omega

/-- The walk that starts at the top, along records that end at `mid` and then zeroes. -/
theorem walk_top (limit : ℕ) {mid : ℕ} (h : Parses st d lo mid rs) (hz : Parses st d mid size [])
    (hlt : lo < mid) (hrs : rs <:+ log) :
    ∃ reads last, walkRecords st d size limit (size + 1) lo = some (reads, last) ∧
      (∀ x ∈ reads, EntryStart st size log (d, x)) ∧
      ∀ w, last = .stop w → limit ≤ w ∧ w < size ∧ (∃ rs', Parses st d w size rs' ∧ rs' <:+ log) ∧
        (w < mid → ∃ rs', Parses st d w mid rs' ∧ rs' <:+ log) ∧
        (mid ≤ w → ∀ x rs'', Parses st d lo x rs'' → x < mid → x < limit) := by
  have hmid := hz.le
  have hstart : ∀ reads, Starts st d mid rs reads → ∀ x ∈ reads, EntryStart st size log (d, x) := by
    intro reads hr x hx
    obtain ⟨h1, rs'', h2, h3⟩ := hr x hx
    refine ⟨by omega, rs'', [], ?_, ?_⟩
    · have := h2.append hz
      rwa [append_nil] at this
    · rw [append_nil]
      exact h3.trans hrs
  have hpadded : ∀ {reads reads'}, Starts st d mid rs reads → Starts st d size [] reads' →
      ∀ x ∈ reads ++ reads', EntryStart st size log (d, x) := by
    intro reads reads' hr hr' x hx
    rcases mem_append.1 hx with hx | hx
    · exact hstart reads hr x hx
    · obtain ⟨hlt', rs'', hp, hsuf⟩ := hr' x hx
      obtain rfl : rs'' = [] := suffix_nil.1 hsuf
      exact ⟨hlt', [], [], hp, nil_suffix⟩
  cases walk_segment limit h hmid (size + 1) (size - mid + 1) (by omega) with
  | stop reads w rs' heq _ h2 h3 h4 h5 h6 =>
    refine ⟨reads, .stop w, heq, hstart reads h6, fun w' hw' => ?_⟩
    cases hw'
    refine ⟨h3, by omega, ⟨rs', ?_, h5.trans hrs⟩, fun _ => ⟨rs', h4, h5.trans hrs⟩, fun h => by omega⟩
    have := h4.append hz
    rwa [append_nil] at this
  | wrap reads _ heq h6 => exact ⟨reads, .wrap, heq, hstart reads h6, nofun⟩
  | past reads m h1 h2 heq h6 h7 =>
    cases walk_segment limit hz (Nat.le_refl _) m 1 (by omega) with
    | stop reads' w rs' heq' h1' h2' h3' h4' h5' h6' =>
      rw [heq'] at heq
      obtain rfl : rs' = [] := suffix_nil.1 h5'
      refine ⟨reads ++ reads', .stop w, heq, hpadded h6 h6', fun w' hw' => ?_⟩
      cases hw'
      exact ⟨h3', h2', ⟨[], h4', nil_suffix⟩, fun h => by omega, fun _ => h7⟩
    | wrap reads' _ heq' h6' =>
      rw [heq'] at heq
      exact ⟨reads ++ reads', .wrap, heq, hpadded h6 h6', nofun⟩
    | past _ _ h1' _ _ _ _ => omega

theorem Free.imp {offs woffs room : ℕ} {wrapped : Bool} {safe safe' : Prop}
    (h : Free st d size offs woffs log wrapped a room safe) (hs : safe' → safe) :
    Free st d size offs woffs log wrapped a room safe' :=
  { h with abandon := fun h' => h.abandon (hs h') }

variable (buf : DtraceBuffer)

theorem totalOf_eq (needed : ℕ) (ha : align = 4 ∨ align = 8) :
    totalOf buf needed align = needed + buf.offset % align := by rw [totalOf, and_align ha]

theorem entryStart_map {reads : List ℕ} (h : ∀ x ∈ reads, EntryStart st size log (d, x)) :
    ∀ p ∈ reads.map fun w => (d, w), EntryStart st size log p := by
  simpa using h

/-- The room is at the top of the buffer, and no word of padding and no record starts between
its end and `dtb_offset`. -/
def Overruns (st : TraceState) (buf : DtraceBuffer) (ecb : Ecb) : Prop :=
  buf.size < buf.offset + totalOf buf ecb.needed ecb.alignment ∧
    buf.offset < buf.size ∧ ecb.needed < buf.size ∧
    ∀ d, buf.tomax = some d → ∀ w rs, ecb.needed ≤ w → w < buf.offset →
      ¬ Parses st d (wrapStart buf) w rs

theorem Ring.fromStart {s : Traced} (hr : Ring st s d) (hpos : 0 < s.buf.offset) :
    wrapStart s.buf < s.buf.offset ∧ 4 ∣ wrapStart s.buf ∧
      ∃ rs, Parses st d (wrapStart s.buf) s.buf.offset rs ∧ rs <:+ s.log := by
  have hx := hr.xamot
  have hh := hr.holds
  unfold wrapStart
  cases hw : s.buf.flags.wrapped with
  | false =>
    rw [hw] at hh
    cases hh with
    | plain rs h hrs => exact ⟨hpos, ⟨0, rfl⟩, rs, h, hrs⟩
  | true =>
    rw [hw] at hh
    cases hh with
    | around rs rs' hle _ _ h hrs =>
      rw [if_pos rfl, if_pos hle]
      exact ⟨hpos, ⟨0, rfl⟩, rs', h, (suffix_append rs rs').trans hrs⟩
    | inside rs hlt h hrs =>
      rw [if_pos rfl, if_neg (by omega)]
      exact ⟨hlt, hx, rs, h, hrs⟩

section Reserve

variable {s : Traced} {ecb : Ecb} (hst : st.Ok) (hr : Ring st s d) (hecb : ecb.Ok)
include hst hr hecb

theorem makeRoom_top (hwrap : s.buf.size < s.buf.offset + totalOf s.buf ecb.needed ecb.alignment)
    (hfit : totalOf s.buf ecb.needed ecb.alignment ≤ s.buf.size) :
    ∃ r offs d', makeRoom st { s.buf with flags := { s.buf.flags with wrapped := true } }
        (clear d s.buf.offset s.buf.size) 0 ecb.needed (wrapStart s.buf) ecb.needed ecb.alignment =
        some r ∧ Room st s ecb.needed (¬ Overruns st s.buf ecb) r offs d' := by
  have hle := hr.le
  have hs8 := hr.size
  have ho4 := hr.offset
  have hneed : ecb.needed ≤ s.buf.size := Nat.le_trans (Nat.le_add_right _ _) hfit
  obtain ⟨hlt, hstart4, rs, hp, hrs⟩ := hr.fromStart (by omega)
  -- What is behind `dtb_offset` is padding now.
  have hsame : SameOutside s.buf.offset s.buf.size d (clear d s.buf.offset s.buf.size) := fun x hx => by
    unfold clear
    rw [if_neg (by omega)]
  have hzero : Parses st (clear d s.buf.offset s.buf.size) s.buf.offset s.buf.size [] :=
    parses_zero hle (by omega) fun x h1 h2 => if_pos ⟨h1, h2⟩
  obtain ⟨reads, last, heq, hreads, hlast⟩ :=
    walk_top (0 + ecb.needed) (hsame.parses hst hp (.inl (Nat.le_refl _))) hzero hlt hrs
  have hreads' := entryStart_map hreads
  unfold makeRoom
  rw [heq]
  dsimp only [bind_eq_bind, bind_some]
  have hal : 0 % ecb.alignment = 0 := zero_mod _
  cases last with
  | wrap =>
    refine reserveOut_room hst hr hecb.alignment ⟨0, rfl⟩ rfl rfl ⟨0, rfl⟩
      (Nat.zero_le _) ⟨0, rfl⟩ ?_ hreads'
    exact (free_plain hst (.nil 0) nil_suffix (by omega)).imp fun _ => trivial
  | stop w =>
    obtain ⟨hlim, hws, ⟨rs', hp', hrs'⟩, hin, hout⟩ := hlast w rfl
    have hw4 := dvd_of_parses hst hp'
    refine reserveOut_room hst hr hecb.alignment ⟨0, rfl⟩ rfl rfl ho4 hle
      (by dsimp only; omega) ?_ hreads'
    refine (free_top hst hp' hrs' (by omega) hws hin).imp fun hno => ?_
    by_contra hge
    refine hno ⟨hwrap, by omega, by omega, fun d0 hd0 x rs0 h1 h2 h3 => ?_⟩
    rw [hr.tomax] at hd0
    cases hd0
    have := hout (by omega) x rs0 (hsame.parses hst h3 (.inl (by omega))) h2
    omega

theorem makeRoom_around (hw : s.buf.flags.wrapped = true) (hx : s.buf.offset ≤ s.buf.xamotOffset)
    (hfit : s.buf.offset + totalOf s.buf ecb.needed ecb.alignment ≤ s.buf.size) :
    ∃ r offs d', makeRoom st s.buf d s.buf.offset (totalOf s.buf ecb.needed ecb.alignment)
        s.buf.xamotOffset ecb.needed ecb.alignment = some r ∧ Room st s ecb.needed True r offs d' := by
  have hs8 := hr.size
  have hh := hr.holds
  rw [hw] at hh
  have htotal := totalOf_eq s.buf ecb.needed hecb.alignment
  rw [htotal] at hfit ⊢
  cases hh with
  | inside _ hlt _ _ => omega
  | around rs rs' _ hxs h h' hrs =>
    obtain ⟨reads, last, heq, hreads, hlast⟩ :=
      walk_around (s.buf.offset + (ecb.needed + s.buf.offset % ecb.alignment)) h hxs hrs
    have hreads' := entryStart_map hreads
    have hrs' : rs' <:+ s.log := (suffix_append rs rs').trans hrs
    unfold makeRoom
    rw [heq]
    cases last with
    | wrap =>
      dsimp only
      split_ifs with h0
      · refine reserveOut_room hst hr hecb.alignment hr.offset rfl rfl ⟨0, rfl⟩
          (Nat.zero_le _) ⟨0, rfl⟩ ?_ hreads'
        rw [h0] at hfit ⊢
        exact free_plain hst (.nil 0) nil_suffix hfit
      · refine reserveOut_room hst hr hecb.alignment hr.offset rfl rfl hr.offset
          hr.le ⟨0, rfl⟩ ?_ hreads'
        dsimp only
        rw [hw]
        exact free_inside hst h' hrs' (by omega) hfit
    | stop w =>
      obtain ⟨hlim, hws, rs'', hp, hsuf⟩ := hlast w rfl
      have hw4 := dvd_of_parses hst hp
      refine reserveOut_room hst hr hecb.alignment hr.offset rfl rfl hr.offset
        hr.le (by dsimp only; omega) ?_ hreads'
      rw [hw]
      exact free_around hst hp h' hsuf hlim hws

theorem reserve_room : dtraceBufferReserve st s.buf ecb.needed ecb.alignment =
    some (refused (dtraceBufferDrop s.buf)) ∨
      ∃ r offs d', dtraceBufferReserve st s.buf ecb.needed ecb.alignment = some r ∧
        Room st s ecb.needed (¬ Overruns st s.buf ecb) r offs d' := by
  have htotal := totalOf_eq s.buf ecb.needed hecb.alignment
  have heq : dtraceBufferReserve st s.buf ecb.needed ecb.alignment =
    reserveRing st s.buf d ecb.needed ecb.alignment := by
    unfold dtraceBufferReserve
    rw [if_neg (by simp [hr.inactive]), hr.tomax]
    dsimp only
    rw [if_neg (by simp [hr.ring]), if_neg (by simp [hr.fill])]
  rw [heq]
  unfold reserveRing
  have hh := hr.holds
  by_cases hwrap : s.buf.size < s.buf.offset + totalOf s.buf ecb.needed ecb.alignment
  · rw [if_pos (.inr hwrap), if_pos hwrap]
    split
    · exact .inl rfl
    · exact .inr (makeRoom_top hst hr hecb hwrap (by omega))
  refine .inr ?_
  have out : ∀ safe, Free st d s.buf.size s.buf.offset s.buf.xamotOffset s.log s.buf.flags.wrapped
      s.buf.offset (ecb.needed + s.buf.offset % ecb.alignment) safe → ∃ r offs d',
      reserveOut st s.buf d s.buf.offset ecb.needed ecb.alignment [] = some r ∧
        Room st s ecb.needed safe r offs d' := fun safe hfree =>
    reserveOut_room hst hr hecb.alignment hr.offset rfl rfl hr.offset hr.le
      hr.xamot hfree (by simp)
  cases hw : s.buf.flags.wrapped with
  | false =>
    rw [if_neg (by simp [hwrap])]
    refine out _ ?_
    rw [hw] at hh ⊢
    cases hh with
    | plain rs h hrs => exact (free_plain hst h hrs (by omega)).imp fun _ => trivial
  | true =>
    rw [if_pos (.inl rfl), if_neg hwrap]
    split_ifs with hlt
    · refine out _ ?_
      rw [hw] at hh ⊢
      cases hh with
      | around _ _ hle _ _ _ _ => omega
      | inside rs _ h hrs => exact (free_inside hst h hrs hlt (by omega)).imp fun _ => trivial
    · obtain ⟨r, offs, d', h1, h2⟩ := makeRoom_around hst hr hecb hw (by omega) (by omega)
      exact ⟨r, offs, d', h1, { h2 with free := h2.free.imp fun _ => trivial }⟩

end Reserve

/-! ## An activation -/

/-- The ECB exists, and what is stored is in the room for the record and leaves its EPID alone. -/
structure Activation.Ok (st : TraceState) (a : Activation) (ecb : Ecb) : Prop where
  found : st.ecbOf a.epid = some ecb
  writes : ∀ w ∈ a.writes, w.1 < ecb.needed ∧ (ecb.size ≠ 0 → 4 ≤ w.1)

theorem storeAll_apply_of_not {offs x : ℕ} {writes : List (ℕ × Byte)}
    (h : ∀ w ∈ writes, offs + w.1 ≠ x) : storeAll d offs writes x = d x := by
  unfold storeAll
  induction writes generalizing d with
  | nil => rfl
  | cons w writes ih =>
    rw [foldl_cons, ih fun w' hw' => h w' (mem_cons_of_mem w hw'),
      Function.update_of_ne (Ne.symm (h w mem_cons_self))]

theorem TraceState.Ok.epid_lt (hst : st.Ok) {epid : ℕ} {ecb : Ecb} (h : st.ecbOf epid = some ecb) :
    epid ≠ dtraceEpidnone ∧ epid < 2 ^ 32 := by
  unfold TraceState.ecbOf at h
  split at h
  · cases h
  rename_i h0
  have hlt : epid - 1 < st.ecbs.length := by
    by_contra hge
    rw [List.getElem?_eq_none (by omega)] at h
    cases h
  have := hst.epids
  omega

/-- The bytes of the buffer once the record is stored. -/
def recorded (st : TraceState) (a : Activation) (ecb : Ecb) (offs : ℕ) (d : Buf) : Buf :=
  storeAll (if ecb.size ≠ 0 then store st.endian d offs 4 a.epid else d) offs a.writes

theorem recorded_parses (hst : st.Ok) {a : Activation} {ecb : Ecb} (ha : a.Ok st ecb) (offs : ℕ)
    (d : Buf) : SameOutside offs (offs + ecb.needed) d (recorded st a ecb offs d) ∧
      Parses st (recorded st a ecb offs d) offs (offs + ecb.size)
        (if ecb.size ≠ 0 then [bytesAt (recorded st a ecb offs d) offs ecb.size] else []) := by
  have hle := (hst.ecb _ _ ha.found).le
  by_cases h0 : ecb.size = 0
  · constructor
    · intro x hx
      unfold recorded
      rw [if_neg (by simpa using h0)]
      exact storeAll_apply_of_not fun w hw => by have := (ha.writes w hw).1; omega
    · rw [if_neg (by simpa using h0), h0]
      exact .nil offs
  · have h4 := hst.four_le ha.found h0
    obtain ⟨hepid, hlt⟩ := hst.epid_lt ha.found
    have hsame : SameOutside offs (offs + ecb.needed) d (recorded st a ecb offs d) := by
      intro x hx
      unfold recorded
      rw [if_pos h0, storeAll_apply_of_not fun w hw => by have := (ha.writes w hw).1; omega]
      exact store_apply_of_not (by omega)
    have hload : load st.endian (recorded st a ecb offs d) offs 4 = a.epid := by
      rw [← load_store st.endian d offs (n := 4) (v := a.epid) (by omega)]
      refine load_congr st.endian fun x _ hx => ?_
      unfold recorded
      rw [if_pos h0]
      exact storeAll_apply_of_not fun w hw => by have := (ha.writes w hw).2 h0; omega
    refine ⟨hsame, ?_⟩
    rw [if_pos h0]
    have he : entryAt st (recorded st a ecb offs d) offs =
        some (ecb.size, some (bytesAt (recorded st a ecb offs d) offs ecb.size)) := by
      unfold entryAt
      rw [hload, if_neg hepid, ha.found]
      dsimp only
      rw [if_neg h0]
    exact Entries.single he (by omega)

theorem dtraceProbe_ring (hst : st.Ok) {s : Traced} (hr : Ring st s d) {a : Activation} {ecb : Ecb}
    (ha : a.Ok st ecb) : ∃ s', dtraceProbe st a s = some s' ∧
      ((a.commit = false → ¬ Overruns st s.buf ecb) → ∃ d', Ring st s' d') := by
  have hecb := hst.ecb _ _ ha.found
  unfold dtraceProbe
  rw [ha.found]
  dsimp only [bind_eq_bind, bind_some]
  rcases reserve_room hst hr hecb with heq | ⟨r, offs, d1, heq, hroom⟩
  · rw [heq]
    exact ⟨⟨dtraceBufferDrop s.buf, s.log⟩, rfl, fun _ => ⟨d, { hr with }⟩⟩
  rw [heq]
  dsimp only [bind_some]
  rw [hroom.granted, hroom.tomax]
  dsimp only [bind_some]
  obtain ⟨hsame, hparse⟩ := recorded_parses hst ha offs d1
  have hsize := hecb.size
  have hdvd := hroom.dvd
  have hle := hecb.le
  have hroomle := hroom.free.le
  cases hc : a.commit with
  | true =>
    refine ⟨_, rfl, fun _ => ⟨recorded st a ecb offs d1, rfl, hroom.ring, hroom.fill,
      hroom.inactive, hroom.size ▸ hr.size, ?_, hroom.xamot, ?_, ?_⟩⟩
    · dsimp only
      omega
    · dsimp only
      rw [hroom.size]
      omega
    · dsimp only
      rw [hroom.size]
      exact hroom.free.commit _ _ _ hsame (by omega) hparse
  | false =>
    refine ⟨_, rfl, fun hsafe => ⟨recorded st a ecb offs d1, rfl, hroom.ring, hroom.fill,
      hroom.inactive, hroom.size ▸ hr.size, hroom.offset, hroom.xamot, hroom.size ▸ hroom.offset_le, ?_⟩⟩
    rw [hroom.size]
    exact hroom.free.abandon (hsafe rfl) _ hsame

/-! ## Snapshots -/

/-- What is read of a polished buffer: from the wrapped offset to the end and then from the top
to the offset, or to the wrapped offset if that is smaller. -/
def snapshot : List (ℕ × ℕ) :=
  if buf.flags.wrapped then [(buf.xamotOffset, buf.size), (0, min buf.offset buf.xamotOffset)]
  else [(0, buf.offset)]

def ReadsAs (st : TraceState) (buf : DtraceBuffer) (ranges : List (ℕ × ℕ)) (rs : List (List Byte)) :
    Prop :=
  ∃ d rss, (dtraceBufferPolish buf).tomax = some d ∧
    Forall₂ (fun p rs => Parses st d p.1 p.2 rs) ranges rss ∧ rss.flatten = rs

/-- What is read is padding and whole records, the last that have been committed, in order. -/
def Exposes (st : TraceState) (s : Traced) (ranges : List (ℕ × ℕ)) : Prop :=
  ∃ rs, ReadsAs st s.buf ranges rs ∧ rs <:+ s.log

theorem Ring.exposes (hst : st.Ok) {s : Traced} (hr : Ring st s d) : Exposes st s (snapshot s.buf) := by
  have hh := hr.holds
  have hle := hr.le
  have h8 := hr.size
  have h4 := hr.offset
  have hx := hr.xamot
  unfold Exposes ReadsAs snapshot dtraceBufferPolish
  cases hw : s.buf.flags.wrapped with
  | false =>
    rw [hw] at hh
    cases hh with
    | plain rs h hrs => exact ⟨rs, ⟨d, [rs], hr.tomax, .cons h .nil, by simp⟩, hrs⟩
  | true =>
    rw [hw] at hh
    rw [if_neg (by simp), if_pos rfl, hr.tomax]
    cases hh with
    | around rs rs' hox hxs h h' hrs =>
      refine ⟨rs ++ rs', ⟨_, [rs, rs'], rfl, ?_, by simp⟩, hrs⟩
      have hsame : SameOutside s.buf.offset s.buf.xamotOffset d
          (if s.buf.offset < s.buf.xamotOffset then clear d s.buf.offset s.buf.xamotOffset
          else if s.buf.xamotOffset < s.buf.offset then
            clear (clear d s.buf.offset s.buf.size) 0 s.buf.xamotOffset else d) := by
        intro x hx
        split
        · unfold clear
          rw [if_neg (by omega)]
        · rw [if_neg (by omega)]
      rw [Nat.min_eq_left hox]
      exact .cons (hsame.parses hst h (.inr (Nat.le_refl _)))
        (.cons (hsame.parses hst h' (.inl (Nat.le_refl _))) .nil)
    | inside rs hxo h hrs =>
      refine ⟨rs, ⟨clear (clear d s.buf.offset s.buf.size) 0 s.buf.xamotOffset, [rs, []], ?_, ?_,
        by simp⟩, hrs⟩
      · rw [map_some, if_neg (by omega), if_pos hxo]
      rw [Nat.min_eq_right (by omega)]
      have hrec : Parses st (clear (clear d s.buf.offset s.buf.size) 0 s.buf.xamotOffset)
          s.buf.xamotOffset s.buf.offset rs := h.congr hst fun x h1 h2 => by
        unfold clear
        rw [if_neg (by omega), if_neg (by omega)]
      have htail : Parses st (clear (clear d s.buf.offset s.buf.size) 0 s.buf.xamotOffset)
          s.buf.offset s.buf.size [] := parses_zero hle (by omega) fun x h1 h2 => by
        unfold clear
        rw [if_neg (by omega), if_pos ⟨h1, h2⟩]
      refine .cons ?_ (.cons (parses_zero (Nat.zero_le _) (by omega) fun x h1 h2 => ?_) .nil)
      · have := hrec.append htail
        rwa [append_nil] at this
      · unfold clear
        rw [if_pos ⟨h1, h2⟩]

/-! ## Runs -/

/-- The states of a ring buffer and its log, from a new buffer on, where no room that overruns
the committed records is given up. -/
inductive Reachable (st : TraceState) : Traced → Prop where
  | start (size tomaxAddr xamotAddr : ℕ) : 8 ∣ size →
      Reachable st ⟨ringBuffer size tomaxAddr xamotAddr, []⟩
  | step {s s' : Traced} {a : Activation} {ecb : Ecb} : Reachable st s → a.Ok st ecb →
      (a.commit = false → ¬ Overruns st s.buf ecb) → dtraceProbe st a s = some s' → Reachable st s'

theorem Reachable.ring (hst : st.Ok) {s : Traced} (h : Reachable st s) : ∃ d, Ring st s d := by
  induction h with
  | start size tomaxAddr xamotAddr h8 =>
    exact ⟨_, rfl, rfl, rfl, rfl, h8, ⟨0, rfl⟩, ⟨0, rfl⟩, Nat.zero_le _, .plain [] (.nil 0) nil_suffix⟩
  | step _ ha hsafe heq ih =>
    obtain ⟨d, hr⟩ := ih
    obtain ⟨s1, heq1, hnext⟩ := dtraceProbe_ring hst hr ha
    rw [heq] at heq1
    cases heq1
    exact hnext hsafe

/-- A ring buffer only ever exposes committed records, and an EPID is only read where there is
one. -/
theorem ring_buffer_exposes_committed (hst : st.Ok) {s : Traced} (h : Reachable st s) :
    Exposes st s (snapshot s.buf) ∧ ∀ a ecb, Activation.Ok st a ecb →
      ∃ r s', dtraceBufferReserve st s.buf ecb.needed ecb.alignment = some r ∧
        (∀ p ∈ r.reads, EntryStart st s.buf.size s.log p) ∧ dtraceProbe st a s = some s' := by
  obtain ⟨d, hr⟩ := h.ring hst
  refine ⟨hr.exposes hst, fun a ecb ha => ?_⟩
  obtain ⟨s', heq, -⟩ := dtraceProbe_ring hst hr ha
  rcases reserve_room hst hr (hst.ecb _ _ ha.found) with h' | ⟨r, _, _, h', hroom⟩
  · exact ⟨_, s', h', fun p hp => (nomatch hp), heq⟩
  · exact ⟨r, s', h', hroom.reads, heq⟩

def threeEcbs : TraceState :=
  ⟨.little, [some ⟨16, 16, 4⟩, some ⟨24, 24, 4⟩, some ⟨24, 48, 8⟩], false, 0⟩

theorem threeEcbs_ok : threeEcbs.Ok := by
  refine ⟨fun epid ecb h => ?_, by decide⟩
  match epid, h with
  | 1, h | 2, h | 3, h =>
    cases h
    exact ⟨by decide, by decide, by decide, by decide⟩
  | n + 4, h => simp [TraceState.ecbOf, dtraceEpidnone, threeEcbs] at h

/-- A probe fires, with one byte of data. -/
def firing (epid : ℕ) (b : Byte) (commit : Bool) : Activation := ⟨epid, [(4, b)], commit⟩

/-- Probes fire one after the other, with a new ring buffer of 64 bytes. -/
def fireAll (as : List Activation) : Option Traced :=
  as.foldlM (fun s a => dtraceProbe threeEcbs a s) ⟨ringBuffer 64 0 0, []⟩

def readRanges (st : TraceState) (buf : DtraceBuffer) (ranges : List (ℕ × ℕ)) :
    Option (List (List Byte)) := do
  let d ← (dtraceBufferPolish buf).tomax
  let rss ← ranges.mapM fun p => scanEntries (entryAt st d) p.2 (p.2 - p.1 + 1) p.1
  some rss.flatten

theorem ReadsAs.readRanges_eq {buf : DtraceBuffer} {ranges : List (ℕ × ℕ)}
    (h : ReadsAs st buf ranges rs) : readRanges st buf ranges = some rs := by
  obtain ⟨d, rss, hd, hall, rfl⟩ := h
  have hscan : ranges.mapM (fun p => scanEntries (entryAt st d) p.2 (p.2 - p.1 + 1) p.1) = some rss := by
    induction hall with
    | nil => rfl
    | cons h _ ih =>
      rw [mapM_cons, h.scan_eq _ (Nat.lt_add_one _), ih]
      rfl
  unfold readRanges
  rw [hd]
  dsimp only [bind_eq_bind, bind_some]
  rw [hscan]
  rfl

theorem firing_ok (epid : ℕ) {ecb : Ecb} (b : Byte) (commit : Bool) (h : threeEcbs.ecbOf epid = some ecb)
    (h4 : 4 < ecb.needed := by decide) : (firing epid b commit).Ok threeEcbs ecb :=
  ⟨h, by simpa [firing] using h4⟩

/-- For the fourth record the first two go, and the third goes for room that is given up. -/
theorem ring_buffer_exposes_committed_wrapped : ∃ s, Reachable threeEcbs s ∧ s.buf.flags.wrapped ∧
    (s.log.length, (readRanges threeEcbs s.buf (snapshot s.buf)).map List.length) = (5, some 2) ∧
    Exposes threeEcbs s (snapshot s.buf) ∧
    ∃ r, dtraceBufferReserve threeEcbs s.buf 48 8 = some r ∧ r.reads ≠ [] ∧
      ∀ p ∈ r.reads, EntryStart threeEcbs s.buf.size s.log p := by
  have h0 : Reachable threeEcbs _ := .start 64 0 0 (by decide)
  have h₁ := h0.step (firing_ok 1 1 true rfl) nofun (some_get (by decide +kernel)).symm
  have h₂ := h₁.step (firing_ok 1 2 true rfl) nofun (some_get (by decide +kernel)).symm
  have h₃ := h₂.step (firing_ok 2 3 true rfl) nofun (some_get (by decide +kernel)).symm
  have h₄ := h₃.step (firing_ok 2 4 true rfl) nofun (some_get (by decide +kernel)).symm
  have h₅ := h₄.step (firing_ok 2 9 false rfl) (fun _ h => absurd h.1 (by decide +kernel))
    (some_get (by decide +kernel)).symm
  have h₆ := h₅.step (firing_ok 1 5 true rfl) nofun (some_get (by decide +kernel)).symm
  obtain ⟨hexp, hres⟩ := ring_buffer_exposes_committed threeEcbs_ok h₆
  obtain ⟨r, -, hr, hreads, -⟩ := hres _ _ (firing_ok 3 6 true rfl)
  refine ⟨_, h₆, by decide +kernel, by decide +kernel, hexp, r, hr, fun hnil => ?_, hreads⟩
  have hempty := congrArg (Option.map fun r => r.reads.isEmpty) hr
  rw [map_some, hnil] at hempty
  revert hempty
  decide +kernel

/-- Reading always to `dtb_offset`. -/
def toOffset : List (ℕ × ℕ) :=
  if buf.flags.wrapped then [(buf.xamotOffset, buf.size), (0, buf.offset)] else [(0, buf.offset)]

/-- Whether what is read after these firings, always to `dtb_offset`, is part of the log. -/
def readsLog (as : List Activation) : Option Bool := do
  let s ← fireAll as
  let rs ← readRanges threeEcbs s.buf (toOffset s.buf)
  some (rs.isSublist s.log)

theorem not_reads_log {as : List Activation} (h : readsLog as = some false) : ∃ s, fireAll as = some s ∧
      ∀ rs, ReadsAs threeEcbs s.buf (toOffset s.buf) rs → ¬ rs.Sublist s.log := by
  obtain ⟨s, hs, h⟩ := bind_eq_some_iff.1 h
  obtain ⟨rs, hrs, h⟩ := bind_eq_some_iff.1 h
  refine ⟨s, hs, fun rs' hrs' hsub => ?_⟩
  rw [hrs'.readRanges_eq] at hrs
  cases hrs
  rw [isSublist_iff_sublist.2 hsub] at h
  cases h

/-- Three records of 16 bytes are followed by room for 24 bytes at the top that is given up: the
third record is read twice. A record of 24 bytes is followed by room for 48 bytes at the top
that is given up: what was stored there is read as a record. -/
theorem given_up_room_is_read :
    (∃ s, fireAll [firing 1 1 true, firing 1 2 true, firing 1 3 true, firing 2 9 false] = some s ∧
      ∀ rs, ReadsAs threeEcbs s.buf (toOffset s.buf) rs → ¬ rs.Sublist s.log) ∧
    ∃ s, fireAll [firing 2 1 true, firing 3 9 false] = some s ∧
      ∀ rs, ReadsAs threeEcbs s.buf (toOffset s.buf) rs → ¬ rs.Sublist s.log :=
  ⟨not_reads_log (by decide +kernel), not_reads_log (by decide +kernel)⟩

end Osol.TraceBuf
