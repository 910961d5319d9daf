import Osol.Uconv.Read

/-!
# Conversions

The six functions on encoded texts and on arbitrary input. A reader of one form and a `put`
of another give the encoding in the target form, or `E2BIG` with nothing stored past the
buffer; a reader that ends without an error has read an encoded text. The round trips follow.
-/

namespace Osol.Uconv

open Osol.Lib List Out

/-! ## A loop over an encoded text -/

section Loop

variable {n m : ℕ} {put : ℕ → Out m → Except Errno (Out m)} {stop : Bool} {cap : ℕ}
  {enc : Char → List (Word n)} {enc' : Char → List (Word m)}
  {read : List (Word n) → ℕ → Out m → Except Errno ℕ × Out m}

section

variable {s : List Char} (hr : Reads put stop enc read) (hs : Stores put cap enc')
  (hnull : stop → ∀ c ∈ s, c.toNat ≠ 0) (l : ℕ)
include hr hs hnull l

theorem Reads.run {b : Out m} (hfit : b.len + (s.flatMap enc').length ≤ cap) :
    read (s.flatMap enc) l b = (.ok (l + (s.flatMap enc).length), b.pushAll (s.flatMap enc')) := by
  induction s generalizing l b with
  | nil => exact hr.nil l b
  | cons c s ih =>
    rw [flatMap_cons, length_append] at hfit
    rw [flatMap_cons, hr.char c _ l b fun h => hnull h c mem_cons_self, store, hs c b, if_pos (by omega)]
    simp only
    rw [ih (fun h d hd => hnull h d (mem_cons_of_mem c hd)) _
      (by rw [pushAll_len]; omega), length_append, Nat.add_assoc, flatMap_cons,
      pushAll_append]

theorem Reads.run_big {b : Out m} (hb : b.len ≤ cap)
    (hbig : cap < b.len + (s.flatMap enc').length) :
    ∃ b', read (s.flatMap enc) l b = (.error .e2big, b') ∧ ∀ i, cap ≤ i → b'.mem i = b.mem i := by
  induction s generalizing l b with
  | nil =>
    rw [flatMap_nil, length_nil] at hbig
    omega
  | cons c s ih =>
    rw [flatMap_cons, hr.char c _ l b fun h => hnull h c mem_cons_self, store, hs c b]
    split_ifs with hc
    · rw [flatMap_cons, length_append] at hbig
      obtain ⟨b', hread, hmem⟩ := ih (fun h d hd => hnull h d (mem_cons_of_mem c hd))
        (l + (enc c).length) (by rwa [pushAll_len])
        (by rw [pushAll_len]; omega)
      refine ⟨b', hread, fun i hi => ?_⟩
      rw [hmem i hi, pushAll_mem, if_neg (by omega)]
    · exact ⟨b, rfl, fun _ _ => rfl⟩

end

end Loop

/-! ## Texts -/

inductive Form where
  | u8
  | u16
  | u32
  deriving DecidableEq

/-- The bytes of a unit. -/
abbrev Form.width : Form → ℕ
  | .u8 => 1
  | .u16 => 2
  | .u32 => 4

abbrev Form.units : Form → Char → List ℕ
  | .u8 => units8
  | .u16 => units16
  | .u32 => units32

variable (f : Form)

/-- The byte order mark in front of a text, if it is asked for; UTF-8 has none. -/
def Form.bom (sys o : Endian) (mark : Bool) (s : List Char) : List (Word f.width) :=
  if mark ∧ s ≠ [] ∧ f ≠ .u8 then [place sys o f.width 0xfeff] else []

def Form.text (sys o : Endian) (mark : Bool) (s : List Char) : List (Word f.width) :=
  f.bom sys o mark s ++ encode sys o f.units f.width s

/-- Units are well formed when they encode scalar values. -/
def Form.WellFormed (sys o : Endian) (us : List (Word f.width)) : Prop :=
  ∃ s : List Char, us = encode sys o f.units f.width s

theorem Form.text_false (sys o : Endian) (s : List Char) :
    f.text sys o false s = encode sys o f.units f.width s := by
  simp [Form.text, Form.bom]

theorem Form.units_length (c : Char) : 1 ≤ (f.units c).length ∧ (f.units c).length ≤ 4 := by
  cases f with
  | u8 =>
    by_cases h1 : c.toNat ≤ 0x7f
    · simp [units8_one h1]
    by_cases h2 : c.toNat ≤ 0x7ff
    · simp [units8_two (not_le.1 h1) h2]
    by_cases h3 : c.toNat ≤ 0xffff
    · simp [units8_three (not_le.1 h2) h3]
    · simp [units8_four (not_le.1 h3)]
  | u16 =>
    show 1 ≤ (units16 c).length ∧ (units16 c).length ≤ 4
    unfold units16
    split <;> simp
  | u32 => simp [Form.units, units32]

theorem Form.encode_length (sys o : Endian) (s : List Char) :
    s.length ≤ (encode sys o f.units f.width s).length ∧
      (encode sys o f.units f.width s).length ≤ 4 * s.length := by
  induction s with
  | nil => exact ⟨le_rfl, le_rfl⟩
  | cons c s ih =>
    have hc := f.units_length c
    rw [encode_cons, length_append, encodeChar, length_map, length_cons]
    omega

/-! ## Flags -/

def Flag.Orders (flag : Flag) : Prop :=
  ¬ (flag.inBigEndian ∧ flag.inLittleEndian) ∧ ¬ (flag.outBigEndian ∧ flag.outLittleEndian)

/-- The byte order two bits ask for. -/
def orderOf (sys : Endian) (big little : Bool) : Endian :=
  if big then .big else if little then .little else sys

def Flag.inOrder (flag : Flag) (sys : Endian) : Endian :=
  orderOf sys flag.inBigEndian flag.inLittleEndian

def Flag.outOrder (flag : Flag) (sys : Endian) : Endian :=
  orderOf sys flag.outBigEndian flag.outLittleEndian

def Flag.Nulls (flag : Flag) (s : List Char) : Prop := flag.ignoreNull ∨ ∀ c ∈ s, c.toNat ≠ 0

theorem checkOrder_eq (sys : Endian) {big little : Bool} (h : ¬ (big ∧ little)) :
    checkOrder sys big little = .ok (orderOf sys big little) := by
  cases big <;> cases little <;> first | rfl | exact absurd ⟨rfl, rfl⟩ h

theorem checkEndian_eq (sys : Endian) {flag : Flag} (h : flag.Orders) :
    checkEndian sys flag = .ok (flag.inOrder sys, flag.outOrder sys) := by
  unfold checkEndian
  rw [checkOrder_eq sys h.1, checkOrder_eq sys h.2]
  rfl

theorem Flag.Nulls.stop {flag : Flag} {s : List Char} (h : flag.Nulls s) :
    (!flag.ignoreNull) = true → ∀ c ∈ s, c.toNat ≠ 0 := by
  intro hs
  rcases h with h | h
  · simp [h] at hs
  · exact h

/-! ## The functions on texts -/

/-- What stands in the buffer. -/
def Result.text {m : ℕ} (r : Result m) : List (Word m) := (range r.outLen).map r.mem

/-- The text is in the buffer with the exact lengths; or it does not fit, and nothing is
stored past the buffer. -/
structure Result.Gives {m : ℕ} (r : Result m) (inLen cap : ℕ) (mem : ℕ → Word m)
    (text : List (Word m)) : Prop where
  fits : text.length ≤ cap → r.ret = none ∧ r.inLen = inLen ∧ r.outLen = text.length ∧
    r.text = text ∧ ∀ i, text.length ≤ i → r.mem i = mem i
  big : cap < text.length → r.ret = some .e2big ∧ r.inLen = inLen ∧ r.outLen = cap ∧
    ∀ i, cap ≤ i → r.mem i = mem i

theorem swapped16 (sys : Endian) : place sys (reversed sys) 2 0xfeff = BitVec.ofNat _ 0xfffe := by
    cases sys <;> decide

theorem swapped32 (sys : Endian) : place sys (reversed sys) 4 0xfeff = BitVec.ofNat _ 0xfffe0000 := by
  cases sys <;> decide

theorem eq_or_reversed (sys o : Endian) : o = sys ∨ o = reversed sys := by
    cases sys <;> cases o <;> simp [reversed]

section Marks

variable {f : Form} {sys : Endian} {swapped : ℕ}

theorem bom_lt (hf : f ≠ .u8) : 0xfeff < 256 ^ f.width := by
  cases f with
  | u8 => exact absurd rfl hf
  | u16 => decide
  | u32 => decide

section

variable (hf : f ≠ .u8) (hsw : place sys (reversed sys) f.width 0xfeff = BitVec.ofNat _ swapped)
include hf hsw

theorem checkBom_text (o : Endian) (us : List (Word f.width)) :
    checkBom sys swapped (place sys o f.width 0xfeff :: us) = some o := by
  have hfit := bom_lt hf
  have hself := place_self sys hfit
  have hne : place sys (reversed sys) f.width 0xfeff ≠ BitVec.ofNat _ 0xfeff := by
    intro h
    cases f with
    | u8 => exact hf rfl
    | u16 => cases sys <;> cases h
    | u32 => cases sys <;> cases h
  unfold checkBom
  rcases eq_or_reversed sys o with rfl | rfl
  · simp only [if_pos hself]
  · simp only [if_neg hne, if_pos hsw]

theorem acceptBom_text (flag : Flag)
    {o oi : Endian} (ho : o = oi ∨ flag.inAcceptBom) (s : List Char) :
    ∃ o' l, acceptBom sys swapped flag oi (f.text sys o flag.inAcceptBom s) = (o',
      encode sys o' f.units f.width s, l) ∧
      l + (encode sys o' f.units f.width s).length = (f.text sys o flag.inAcceptBom s).length := by
  by_cases ha : flag.inAcceptBom = true
  · cases s with
    | nil =>
      refine ⟨oi, 0, ?_, ?_⟩
      · simp [acceptBom, ha, Form.text, Form.bom, encode, checkBom]
      · simp [Form.text, Form.bom, encode]
    | cons c s =>
      have htext : f.text sys o flag.inAcceptBom (c :: s) =
          place sys o f.width 0xfeff :: encode sys o f.units f.width (c :: s) := by
        rw [Form.text, Form.bom, if_pos ⟨ha, cons_ne_nil c s, hf⟩]
        rfl
      refine ⟨o, 1, ?_, ?_⟩
      · rw [htext, acceptBom, if_pos ha, checkBom_text hf hsw]
        rfl
      · rw [htext, length_cons]
        omega
  · obtain rfl : o = oi := ho.resolve_right ha
    have hfalse : flag.inAcceptBom = false := by simpa using ha
    refine ⟨o, 0, ?_, ?_⟩
    · rw [acceptBom, if_neg ha, hfalse, f.text_false]
    · rw [hfalse, f.text_false, Nat.zero_add]

theorem emitBom_text {n cap : ℕ} (flag : Flag)
    (o : Endian) {s : List Char} {us : List (Word n)} (hus : 0 < us.length ↔ s ≠ [])
    (b : Out f.width) :
    emitBom swapped flag (decide (o = sys)) us cap b =
      if 0 < cap then b.pushAll (f.bom sys o flag.outEmitBom s) else b := by
  have hfit := bom_lt hf
  have hunit : place sys o f.width 0xfeff =
    BitVec.ofNat _ (if decide (o = sys) = true then 0xfeff else swapped) := by
    rcases eq_or_reversed sys o with rfl | rfl
    · rw [if_pos (decide_eq_true rfl), place_self o hfit]
    · rw [if_neg (by cases sys <;> decide), hsw]
  unfold emitBom Form.bom
  by_cases hcap : 0 < cap
  · rw [if_pos hcap]
    by_cases h : flag.outEmitBom = true ∧ s ≠ [] ∧ f ≠ .u8
    · rw [if_pos h, if_pos ⟨hus.2 h.2.1, hcap, h.1⟩, hunit]
      rfl
    · rw [if_neg h, if_neg fun h' => h ⟨h'.2.2, hus.1 h'.1, hf⟩]
      rfl
  · rw [if_neg hcap, if_neg fun h => hcap h.2.1]

end

end Marks

theorem finish_text {n : ℕ} {g : Form} {sys oo : Endian} {mark : Bool} {cap inLen l : ℕ}
    {stop : Bool} {enc : Char → List (Word n)} {put : ℕ → Out g.width → Except Errno (Out g.width)}
    {read : List (Word n) → ℕ → Out g.width → Except Errno ℕ × Out g.width} {s : List Char}
    {mem : ℕ → Word g.width} (hr : Reads put stop enc read)
    (hs : Stores put cap (encodeChar sys oo g.units g.width))
    (hnull : stop → ∀ c ∈ s, c.toNat ≠ 0) (hl : l + (s.flatMap enc).length = inLen) :
    (finish inLen cap (read (s.flatMap enc) l
      (if 0 < cap then Out.pushAll ⟨mem, 0⟩ (g.bom sys oo mark s) else ⟨mem, 0⟩))).Gives
      inLen cap mem (g.text sys oo mark s) := by
  have hbom : (g.bom sys oo mark s).length ≤ s.length := by
    unfold Form.bom
    split
    · next h => exact length_pos_of_ne_nil h.2.1
    · exact Nat.zero_le _
  have hbom1 : (g.bom sys oo mark s).length ≤ 1 := by
    unfold Form.bom
    split <;> simp
  have henc := (g.encode_length sys oo s).1
  have htext : (g.text sys oo mark s).length =
    (g.bom sys oo mark s).length + (encode sys oo g.units g.width s).length := length_append
  constructor
  · intro hfit
    have hstart : (if 0 < cap then Out.pushAll ⟨mem, 0⟩ (g.bom sys oo mark s) else ⟨mem, 0⟩) =
        Out.pushAll ⟨mem, 0⟩ (g.bom sys oo mark s) := by
      split
      · rfl
      · have hnil : g.bom sys oo mark s = [] := eq_nil_of_length_eq_zero (by omega)
        rw [hnil]
        rfl
    rw [hstart, hr.run hs hnull l (by
      rw [pushAll_len]
      show 0 + (g.bom sys oo mark s).length + (encode sys oo g.units g.width s).length ≤ cap
      omega), ← pushAll_append]
    refine ⟨rfl, hl, ?_, ?_, fun i hi => ?_⟩
    · show (Out.pushAll ⟨mem, 0⟩ (g.text sys oo mark s)).len = _
      rw [pushAll_len, Nat.zero_add]
    · show (range (Out.pushAll ⟨mem, 0⟩ (g.text sys oo mark s)).len).map
        (Out.pushAll ⟨mem, 0⟩ (g.text sys oo mark s)).mem = _
      refine ext_getElem (by simp) fun i hi hi' => ?_
      rw [getElem_map, getElem_range, pushAll_mem, if_pos (by simpa using hi'),
        Nat.sub_zero, getD_eq_getElem?_getD, List.getElem?_eq_getElem hi', Option.getD_some]
    · show (Out.pushAll ⟨mem, 0⟩ (g.text sys oo mark s)).mem i = _
      rw [pushAll_mem, if_neg (by simpa using hi)]
  · intro hbig
    have hstart : ∃ b : Out g.width, (if 0 < cap then Out.pushAll ⟨mem, 0⟩ (g.bom sys oo mark s)
        else ⟨mem, 0⟩) = b ∧ b.len ≤ cap ∧ cap < b.len + (encode sys oo g.units g.width s).length ∧
        ∀ i, cap ≤ i → b.mem i = mem i := by
      by_cases hcap : 0 < cap
      · refine ⟨_, if_pos hcap, ?_, ?_, fun i hi => ?_⟩
        · rw [pushAll_len]
          simp only
          omega
        · rw [pushAll_len]
          omega
        · rw [pushAll_mem, if_neg]
          simp only
          omega
      · refine ⟨_, if_neg hcap, Nat.zero_le cap, ?_, fun _ _ => rfl⟩
        omega
    obtain ⟨b, hb, hlen, hroom, hmem⟩ := hstart
    obtain ⟨b', hread, hmem'⟩ := hr.run_big hs hnull l hlen hroom
    rw [hb, hread]
    exact ⟨rfl, rfl, rfl, fun i hi => (hmem' i hi).trans (hmem i hi)⟩

/-! ## All six -/

inductive Conv where
  | u16tou32
  | u16tou8
  | u32tou16
  | u32tou8
  | u8tou16
  | u8tou32
  deriving DecidableEq

abbrev Conv.src : Conv → Form
  | .u16tou32 | .u16tou8 => .u16
  | .u32tou16 | .u32tou8 => .u32
  | .u8tou16 | .u8tou32 => .u8

abbrev Conv.dst : Conv → Form
  | .u8tou32 | .u16tou32 => .u32
  | .u8tou16 | .u32tou16 => .u16
  | .u16tou8 | .u32tou8 => .u8

/-- The conversion. -/
def Conv.run (c : Conv) (sys : Endian) : List (Word c.src.width) → (ℕ → Word c.dst.width) → ℕ →
    Flag → Result c.dst.width :=
  match c with
  | .u16tou32 => uconvU16tou32 sys
  | .u16tou8 => uconvU16tou8 sys
  | .u32tou16 => uconvU32tou16 sys
  | .u32tou8 => uconvU32tou8 sys
  | .u8tou16 => uconvU8tou16 sys
  | .u8tou32 => uconvU8tou32 sys

/-- The conversion in the other direction. -/
def Conv.back (c : Conv) (sys : Endian) : List (Word c.dst.width) → (ℕ → Word c.src.width) → ℕ →
    Flag → Result c.src.width :=
  match c with
  | .u16tou32 => uconvU32tou16 sys
  | .u16tou8 => uconvU8tou16 sys
  | .u32tou16 => uconvU16tou32 sys
  | .u32tou8 => uconvU8tou32 sys
  | .u8tou16 => uconvU16tou8 sys
  | .u8tou32 => uconvU32tou8 sys

section Six

variable {sys o : Endian} {flag : Flag} {s : List Char}

theorem Form.text_pos (mark : Bool) : 0 < (f.text sys o mark s).length ↔ s ≠ [] := by
  constructor
  · rintro h rfl
    simp [Form.text, Form.bom, encode] at h
  · intro hs
    have := (f.encode_length sys o s).1
    have := length_pos_of_ne_nil hs
    rw [Form.text, length_append]
    omega

theorem Form.text_u8 (mark : Bool) (o' : Endian) :
    Form.u8.text sys o mark s = encode sys o' units8 1 s := by
  have hchar : encodeChar sys o units8 1 = encodeChar sys o' units8 1 := by
    funext c
    refine map_congr_left fun v hv => ?_
    obtain ⟨b, -, rfl⟩ := mem_map.1 hv
    rw [place_byte sys o b.toNat_lt, place_byte sys o' b.toNat_lt]
  have hbom : Form.u8.bom sys o mark s = [] := if_neg (by simp)
  rw [Form.text, hbom, nil_append]
  show s.flatMap (encodeChar sys o units8 1) = s.flatMap (encodeChar sys o' units8 1)
  rw [hchar]

theorem bom_u8 (sys o : Endian) (mark : Bool) (s : List Char) (cap : ℕ) (b : Out 1) :
    (if 0 < cap then b.pushAll (Form.u8.bom sys o mark s) else b) = b := by
  have hbom : Form.u8.bom sys o mark s = [] := if_neg (by simp)
  rw [hbom]
  exact ite_self b

section

variable (c : Conv) (horders : flag.Orders) (hnull : flag.Nulls s)
  (ho : o = flag.inOrder sys ∨ flag.inAcceptBom)
include c horders hnull ho

theorem Conv.run_text (mem : ℕ → Word c.dst.width) (cap : ℕ) :
    (c.run sys (c.src.text sys o flag.inAcceptBom s) mem cap flag).Gives
      (c.src.text sys o flag.inAcceptBom s).length cap mem
      (c.dst.text sys (flag.outOrder sys) flag.outEmitBom s) := by
  have he := checkEndian_eq sys horders
  cases c with
  | u16tou32 =>
    obtain ⟨o', l, hacc, hl⟩ := acceptBom_text (f := .u16) (by simp) (swapped16 sys) flag ho s
    show (uconvU16tou32 sys _ mem cap flag).Gives _ _ _ _
    simp only [uconvU16tou32, he, hacc]
    rw [emitBom_text (f := .u32) (by simp) (swapped32 sys) flag (flag.outOrder sys)
      (Form.text_pos .u16 flag.inAcceptBom)]
    exact finish_text (g := .u32) (reads_readU16 _) (stores_putU32 sys _ cap) hnull.stop hl
  | u16tou8 =>
    obtain ⟨o', l, hacc, hl⟩ := acceptBom_text (f := .u16) (by simp) (swapped16 sys) flag ho s
    show (uconvU16tou8 sys _ mem cap flag).Gives _ _ _ _
    simp only [uconvU16tou8, he, hacc]
    rw [← bom_u8 sys (flag.outOrder sys) flag.outEmitBom s cap ⟨mem, 0⟩]
    exact finish_text (g := .u8) (reads_readU16 _) (stores_putU8 sys _ cap) hnull.stop hl
  | u32tou16 =>
    obtain ⟨o', l, hacc, hl⟩ := acceptBom_text (f := .u32) (by simp) (swapped32 sys) flag ho s
    show (uconvU32tou16 sys _ mem cap flag).Gives _ _ _ _
    simp only [uconvU32tou16, he, hacc]
    rw [emitBom_text (f := .u16) (by simp) (swapped16 sys) flag (flag.outOrder sys)
      (Form.text_pos .u32 flag.inAcceptBom)]
    exact finish_text (reads_readU32 _) (stores_putU16Checked sys _ cap) hnull.stop hl
  | u32tou8 =>
    obtain ⟨o', l, hacc, hl⟩ := acceptBom_text (f := .u32) (by simp) (swapped32 sys) flag ho s
    show (uconvU32tou8 sys _ mem cap flag).Gives _ _ _ _
    simp only [uconvU32tou8, he, hacc]
    rw [← bom_u8 sys (flag.outOrder sys) flag.outEmitBom s cap ⟨mem, 0⟩]
    exact finish_text (reads_readU32 _) (stores_putU8 sys _ cap) hnull.stop hl
  | u8tou16 =>
    show (uconvU8tou16 sys (Form.u8.text sys o flag.inAcceptBom s) mem cap flag).Gives
      (Form.u8.text sys o flag.inAcceptBom s).length _ _ _
    simp only [uconvU8tou16, he]
    rw [emitBom_text (f := .u16) (by simp) (swapped16 sys) flag (flag.outOrder sys)
      (Form.text_pos .u8 flag.inAcceptBom), Form.text_u8 flag.inAcceptBom sys]
    exact finish_text (reads_readU8 _) (stores_putU16 sys _ cap) hnull.stop (Nat.zero_add _)
  | u8tou32 =>
    show (uconvU8tou32 sys (Form.u8.text sys o flag.inAcceptBom s) mem cap flag).Gives
      (Form.u8.text sys o flag.inAcceptBom s).length _ _ _
    simp only [uconvU8tou32, he]
    rw [emitBom_text (f := .u32) (by simp) (swapped32 sys) flag (flag.outOrder sys)
      (Form.text_pos .u8 flag.inAcceptBom), Form.text_u8 flag.inAcceptBom sys]
    exact finish_text (g := .u32) (reads_readU8 _) (stores_putU32 sys _ cap) hnull.stop
      (Nat.zero_add _)

theorem Conv.back_text (mem : ℕ → Word c.src.width) (cap : ℕ) :
    (c.back sys (c.dst.text sys o flag.inAcceptBom s) mem cap flag).Gives
      (c.dst.text sys o flag.inAcceptBom s).length cap mem
      (c.src.text sys (flag.outOrder sys) flag.outEmitBom s) := by
  cases c with
  | u16tou32 => exact Conv.run_text .u32tou16 horders hnull ho mem cap
  | u16tou8 => exact Conv.run_text .u8tou16 horders hnull ho mem cap
  | u32tou16 => exact Conv.run_text .u16tou32 horders hnull ho mem cap
  | u32tou8 => exact Conv.run_text .u8tou32 horders hnull ho mem cap
  | u8tou16 => exact Conv.run_text .u16tou8 horders hnull ho mem cap
  | u8tou32 => exact Conv.run_text .u32tou8 horders hnull ho mem cap

end

/-- Two conversions after one another: the second reads the byte order that the first writes,
or finds it in the byte order mark. -/
def Link (sys : Endian) (first second : Flag) : Prop :=
  first.outEmitBom = second.inAcceptBom ∧
    (first.outOrder sys = second.inOrder sys ∨ second.inAcceptBom)

/-- Each function takes the encoding of a text to its encoding in the target form, with the
exact lengths, or finds that it does not fit; a conversion and the one back are the identity,
and the way from UTF-16 to UTF-8 by UTF-32 is the direct one. -/
theorem uconv_commute (sys : Endian) (s : List Char) :
    (∀ (c : Conv) (flag : Flag) (o : Endian) (mem : ℕ → Word c.dst.width) (cap : ℕ), flag.Orders →
      flag.Nulls s → (o = flag.inOrder sys ∨ flag.inAcceptBom) →
      (c.run sys (c.src.text sys o flag.inAcceptBom s) mem cap flag).Gives
        (c.src.text sys o flag.inAcceptBom s).length cap mem
        (c.dst.text sys (flag.outOrder sys) flag.outEmitBom s)) ∧
    (∀ (c : Conv) (there back : Flag) (o : Endian) (mem : ℕ → Word c.dst.width)
      (mem' : ℕ → Word c.src.width) (cap cap' : ℕ), there.Orders → back.Orders → there.Nulls s →
      back.Nulls s → (o = there.inOrder sys ∨ there.inAcceptBom) → Link sys there back →
      back.outOrder sys = o → back.outEmitBom = there.inAcceptBom →
      (c.dst.text sys (there.outOrder sys) there.outEmitBom s).length ≤ cap →
      (c.src.text sys o there.inAcceptBom s).length ≤ cap' →
      let r := c.run sys (c.src.text sys o there.inAcceptBom s) mem cap there
      let r' := c.back sys r.text mem' cap' back
      r.ret = none ∧ r'.ret = none ∧ r'.text = c.src.text sys o there.inAcceptBom s) ∧
    (∀ (to32 to8 direct : Flag) (o : Endian) (mem : ℕ → Word 4) (mem' mem'' : ℕ → Word 1)
      (cap cap' : ℕ), to32.Orders → to8.Orders → direct.Orders → to32.Nulls s → to8.Nulls s →
      direct.Nulls s → (o = to32.inOrder sys ∨ to32.inAcceptBom) → Link sys to32 to8 →
      direct.inAcceptBom = to32.inAcceptBom → (o = direct.inOrder sys ∨ direct.inAcceptBom) →
      (Form.u32.text sys (to32.outOrder sys) to32.outEmitBom s).length ≤ cap →
      (Form.u8.text sys o false s).length ≤ cap' →
      let u := Form.u16.text sys o to32.inAcceptBom s
      let r := uconvU16tou32 sys u mem cap to32
      let r' := uconvU32tou8 sys r.text mem' cap' to8
      let d := uconvU16tou8 sys u mem'' cap' direct
      r.ret = none ∧ r'.ret = none ∧ d.ret = none ∧ r'.text = d.text) := by
  refine ⟨fun c flag o mem cap h1 h2 h3 => c.run_text h1 h2 h3 mem cap, ?_, ?_⟩
  · intro c there back o mem mem' cap cap' h1 h2 h3 h4 ho hlink hout hmark hcap hcap'
    obtain ⟨hret, -, -, htext, -⟩ := (c.run_text h1 h3 ho mem cap).fits hcap
    have hback := c.back_text h2 h4 hlink.2 mem' cap'
    rw [hout, hmark] at hback
    obtain ⟨hret', -, -, htext', -⟩ := hback.fits hcap'
    simp only
    rw [htext, hlink.1]
    exact ⟨hret, hret', htext'⟩
  · intro to32 to8 direct o mem mem' mem'' cap cap' h1 h2 h3 h4 h5 h6 ho hlink hacc ho' hcap hcap'
    have hu8 : ∀ (o' : Endian) mark, Form.u8.text sys o' mark s = Form.u8.text sys o false s := by
      intro o' mark
      rw [Form.text_u8 mark sys, Form.text_u8 false sys]
    obtain ⟨hret, -, -, htext, -⟩ := (Conv.run_text .u16tou32 h1 h4 ho mem cap).fits hcap
    have hsecond := Conv.run_text .u32tou8 h2 h5 hlink.2 mem' cap'
    have hdirect := Conv.run_text .u16tou8 h3 h6 ho' mem'' cap'
    obtain ⟨hret', -, -, htext', -⟩ := hsecond.fits (by rw [hu8]; exact hcap')
    obtain ⟨hret'', -, -, htext'', -⟩ := hdirect.fits (by rw [hu8]; exact hcap')
    simp only
    have hr : (uconvU16tou32 sys (Form.u16.text sys o to32.inAcceptBom s) mem cap to32).text = _ :=
      htext
    rw [hr, hlink.1, ← hacc]
    refine ⟨hacc ▸ hret, hret', hret'', ?_⟩
    exact htext'.trans ((hu8 _ _).trans ((hu8 _ _).symm.trans htext''.symm))

theorem uconv_commute_mixed :
    (uconvU8tou16 .little (Form.u8.text .little .little false ['A', 'é', '€', '😀']) (fun _ => 0) 5
      ⟨false, true, false, false, false, false, false⟩).Gives 10 5 (fun _ => 0)
      (Form.u16.text .little .big false ['A', 'é', '€', '😀']) := by
  have h := (uconv_commute .little ['A', 'é', '€', '😀']).1 .u8tou16
    ⟨false, true, false, false, false, false, false⟩ .little (fun _ => 0) 5 ⟨by simp, by simp⟩
    (Or.inr (by simp)) (Or.inl rfl)
  exact h

end Six

/-! ## Arbitrary input -/

section Input

variable {sys : Endian} {flag : Flag}

theorem finish_ret {m inLen cap : ℕ} {r : Except Errno ℕ × Out m}
    (h : (finish inLen cap r).ret = none) : ∃ k, r.1 = .ok k := by
  obtain ⟨e | k, b⟩ := r
  · cases h
  · exact ⟨k, rfl⟩

theorem putU16Checked_le {native : Bool} {cap v : ℕ} {b b' : Out 2}
    (h : putU16Checked native cap v b = .ok b') : v ≤ 0x10ffff := by
  unfold putU16Checked at h
  split at h
  · cases h
  · omega

theorem putU8_le {cap v : ℕ} {b b' : Out 1} (h : putU8 cap v b = .ok b') : v ≤ 0x10ffff := by
  by_contra hn
  simp only [putU8, if_neg (show ¬ v ≤ 0x7f by omega), if_neg (show ¬ v ≤ 0x7ff by omega),
    if_neg (show ¬ v ≤ 0xffff by omega), if_neg hn] at h
  cases h

theorem Conv.run_wellFormed (c : Conv) {us : List (Word c.src.width)} {mem : ℕ → Word c.dst.width}
    {cap : ℕ} (horders : flag.Orders) (hnull : flag.ignoreNull = true)
    (hacc : flag.inAcceptBom = false)
    (hsur : c.src = .u32 → ∀ v, 0xd800 ≤ v → v ≤ 0xdfff → place sys (flag.inOrder sys) c.src.width v ∉ us)
    (h : (c.run sys us mem cap flag).ret = none) :
    c.src.WellFormed sys (flag.inOrder sys) us := by
  have he := checkEndian_eq sys horders
  have hin : ∀ {n swapped : ℕ} (us : List (Word n)),
      acceptBom sys swapped flag (flag.inOrder sys) us = (flag.inOrder sys, us, 0) :=
    fun us => if_neg (by simp [hacc])
  have hunits : ∀ us : List (Word 4),
    (∀ v, 0xd800 ≤ v → v ≤ 0xdfff → place sys (flag.inOrder sys) 4 v ∉ us) → ∀ u ∈ us,
      ¬ (0xd800 ≤ inWord (decide (flag.inOrder sys = sys)) u ∧
        inWord (decide (flag.inOrder sys = sys)) u ≤ 0xdfff) := by
    intro us hus u hu hv
    refine hus _ hv.1 hv.2 ?_
    rwa [place_inWord]
  cases c with
  | u16tou32 =>
    simp only [Conv.run, uconvU16tou32, he, hin, hnull, Bool.not_true] at h
    obtain ⟨k, hk⟩ := finish_ret h
    exact sound_readU16 us 0 _ k hk
  | u16tou8 =>
    simp only [Conv.run, uconvU16tou8, he, hin, hnull, Bool.not_true] at h
    obtain ⟨k, hk⟩ := finish_ret h
    exact sound_readU16 us 0 _ k hk
  | u32tou16 =>
    simp only [Conv.run, uconvU32tou16, he, hin, hnull, Bool.not_true] at h
    obtain ⟨k, hk⟩ := finish_ret h
    exact readU32_text (fun _ _ _ => putU16Checked_le) (hunits us (hsur rfl)) hk
  | u32tou8 =>
    simp only [Conv.run, uconvU32tou8, he, hin, hnull, Bool.not_true] at h
    obtain ⟨k, hk⟩ := finish_ret h
    exact readU32_text (fun _ _ _ => putU8_le) (hunits us (hsur rfl)) hk
  | u8tou16 =>
    simp only [Conv.run, uconvU8tou16, he, hnull, Bool.not_true] at h
    obtain ⟨k, hk⟩ := finish_ret h
    exact sound_readU8 us 0 _ k hk
  | u8tou32 =>
    simp only [Conv.run, uconvU8tou32, he, hnull, Bool.not_true] at h
    obtain ⟨k, hk⟩ := finish_ret h
    exact sound_readU8 us 0 _ k hk

/-- With room enough a function returns 0 exactly on well-formed input, its output is then
well formed, and the function in the other direction gives the input back. The input of
`uconv_u32tou16` and `uconv_u32tou8` has no surrogates. -/
theorem uconv_wellFormed (c : Conv) (us : List (Word c.src.width)) (mem : ℕ → Word c.dst.width)
    (cap : ℕ) (horders : flag.Orders) (hnull : flag.ignoreNull = true)
    (hacc : flag.inAcceptBom = false) (hemit : flag.outEmitBom = false)
    (hsur : c.src = .u32 → ∀ v, 0xd800 ≤ v → v ≤ 0xdfff →
      place sys (flag.inOrder sys) c.src.width v ∉ us) :
    let r := c.run sys us mem cap flag
    (4 * us.length ≤ cap → (r.ret = none ↔ c.src.WellFormed sys (flag.inOrder sys) us)) ∧
    (r.ret = none → c.dst.WellFormed sys (flag.outOrder sys) r.text ∧
      ∀ (back : Flag) (mem' : ℕ → Word c.src.width) (cap' : ℕ), back.Orders →
        back.ignoreNull = true → back.inAcceptBom = false → back.outEmitBom = false →
        back.inOrder sys = flag.outOrder sys → back.outOrder sys = flag.inOrder sys →
        us.length ≤ cap' →
        (c.back sys r.text mem' cap' back).ret = none ∧
          (c.back sys r.text mem' cap' back).text = us) := by
  have hrun : ∀ s, us = encode sys (flag.inOrder sys) c.src.units c.src.width s →
      (c.run sys us mem cap flag).Gives us.length cap mem
        (encode sys (flag.outOrder sys) c.dst.units c.dst.width s) := by
    rintro s rfl
    have ho : flag.inOrder sys = flag.inOrder sys ∨ flag.inAcceptBom := Or.inl rfl
    have := c.run_text (s := s) horders (Or.inl hnull) ho mem cap
    rwa [hacc, hemit, Form.text_false, Form.text_false] at this
  refine ⟨fun hcap => ⟨fun h => c.run_wellFormed horders hnull hacc hsur h, ?_⟩, fun h => ?_⟩
  · rintro ⟨s, hs⟩
    have hin := (c.src.encode_length sys (flag.inOrder sys) s).1
    have hout := (c.dst.encode_length sys (flag.outOrder sys) s).2
    rw [← hs] at hin
    exact ((hrun s hs).fits (by omega)).1
  obtain ⟨s, hs⟩ := c.run_wellFormed horders hnull hacc hsur h
  have hfit : (encode sys (flag.outOrder sys) c.dst.units c.dst.width s).length ≤ cap := by
    by_contra hn
    have := ((hrun s hs).big (not_le.1 hn)).1
    rw [h] at this
    cases this
  obtain ⟨-, -, -, htext, -⟩ := (hrun s hs).fits hfit
  refine ⟨⟨s, htext⟩, fun back mem' cap' h1 h2 h3 h4 h5 h6 hcap' => ?_⟩
  have ho : back.inOrder sys = back.inOrder sys ∨ back.inAcceptBom := Or.inl rfl
  have hback := c.back_text (s := s) h1 (Or.inl h2) ho mem' cap'
  rw [h3, h4, h5, h6, Form.text_false, Form.text_false, ← hs, ← htext] at hback
  obtain ⟨hret, -, -, hgives, -⟩ := hback.fits hcap'
  exact ⟨hret, hgives⟩

/-- Three characters that are one, three and four bytes of UTF-8. -/
def threeWidths : List (Word 4) := [0x61, 0x20ac, 0x1f600]

theorem uconv_wellFormed_threeWidths :
    let flag : Flag := ⟨false, false, false, false, true, false, false⟩
    let r := uconvU32tou8 .little threeWidths (fun _ => 0) 12 flag
    r.ret = none ∧ Form.u32.WellFormed .little .little threeWidths ∧
      r.text = [0x61, 0xe2, 0x82, 0xac, 0xf0, 0x9f, 0x98, 0x80] ∧
      (uconvU8tou32 .little r.text (fun _ => 0) 3 flag).text = threeWidths := by
  intro flag r
  have hsur : Conv.u32tou8.src = .u32 → ∀ v, 0xd800 ≤ v → v ≤ 0xdfff →
      place .little (flag.inOrder .little) Conv.u32tou8.src.width v ∉ threeWidths := by
    intro _ v h1 h2 hmem
    have hv : place .little .little 4 v ∈ threeWidths := hmem
    rw [place_self _ (by omega)] at hv
    have hval := mem_map_of_mem (f := BitVec.toNat) hv
    rw [toNat_ofNat_of_lt (by omega)] at hval
    have : v = 0x61 ∨ v = 0x20ac ∨ v = 0x1f600 := by simpa [threeWidths] using hval
    omega
  obtain ⟨hiff, hback⟩ := @uconv_wellFormed .little flag .u32tou8 threeWidths
    (fun _ => 0) 12 ⟨by simp [flag], by simp [flag]⟩ rfl rfl rfl hsur
  have hret : r.ret = none := by decide +kernel
  exact ⟨hret, (hiff (by decide)).1 hret, by decide +kernel,
    ((hback hret).2 flag (fun _ => 0) 3 ⟨by simp [flag], by simp [flag]⟩ rfl rfl rfl rfl rfl (by decide)).2⟩

/-- `EBADF` for two byte orders at once, on a text that is well formed; and a surrogate in
UTF-32 is stored in UTF-16 as it is, where the conversion back takes it for half a pair. -/
theorem uconv_wellFormed_fails : Form.u8.WellFormed .little .little [] ∧
    (uconvU8tou16 .little [] (fun _ => 0) 0 ⟨true, false, true, false, true, false, false⟩).ret =
      some .ebadf ∧
    ¬ Form.u32.WellFormed .little .little [BitVec.ofNat _ 0xd800] ∧
    (uconvU32tou16 .little [BitVec.ofNat _ 0xd800] (fun _ => 0) 4
      ⟨false, false, false, false, true, false, false⟩).ret = none ∧
    (uconvU32tou16 .little [BitVec.ofNat _ 0xd800] (fun _ => 0) 4
      ⟨false, false, false, false, true, false, false⟩).text = [BitVec.ofNat _ 0xd800] ∧
    (uconvU16tou32 .little [BitVec.ofNat _ 0xd800] (fun _ => 0) 4
      ⟨false, false, false, false, true, false, false⟩).ret = some .einval := by
  refine ⟨⟨[], rfl⟩, rfl, ?_, by decide, by decide, by decide⟩
  rintro ⟨s, hs⟩
  cases s with
  | nil => cases hs
  | cons c s =>
    have hc : BitVec.ofNat (8 * 4) 0xd800 = place .little .little 4 c.toNat := (List.cons.inj hs).1
    have hlt : c.toNat < 256 ^ 4 := (toNat_lt c).trans (by decide)
    rw [place_self _ hlt] at hc
    have := congrArg BitVec.toNat hc
    rw [toNat_ofNat_of_lt (by decide), toNat_ofNat_of_lt hlt] at this
    have := not_surrogate c
    omega

end Input

end Osol.Uconv
