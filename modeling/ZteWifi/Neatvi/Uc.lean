import Mathlib.Data.List.GetD
import ZteWifi.Lib.Pieces
import ZteWifi.Neatvi.Regex
import ZteWifi.Text.Utf8

/-!
# Characters of the editor

The editor counts in characters, which `uc_len` finds from their first bytes, and its lines are
bytes.  `uc_chr` and `uc_off` lead from the one to the other.
-/

open Ascii Pieces

namespace Neatvi

/-! ## 1. The functions -/

/-- `uc_code`: the code point of the first character. -/
def ucCode (s : List UInt8) : Nat :=
  let c := s.getD 0 0
  if ~~~ c &&& 0xC0 ≠ 0 ∨ s.getD 1 0 = 0 then c.toNat
  else if ~~~ c &&& 0x20 ≠ 0 ∨ s.getD 2 0 = 0 then
    bitsOf c 0x1F 6 ||| bitsOf (s.getD 1 0) 0x3F 0
  else if ~~~ c &&& 0x10 ≠ 0 ∨ s.getD 3 0 = 0 then
    bitsOf c 0x0F 12 ||| bitsOf (s.getD 1 0) 0x3F 6 ||| bitsOf (s.getD 2 0) 0x3F 0
  else if ~~~ c &&& 0x08 ≠ 0 then
    bitsOf c 0x07 18 ||| bitsOf (s.getD 1 0) 0x3F 12 ||| bitsOf (s.getD 2 0) 0x3F 6 |||
      bitsOf (s.getD 3 0) 0x3F 0
  else c.toNat

/-- `uc_next`, with positions for pointers. -/
def ucNext (s : List UInt8) (p : Nat) : Nat :=
  let l := ucLen (s.drop p)
  if 0 < l then p + l else p

/-- `uc_prev` in the string `beg`. -/
def ucPrev (beg : List UInt8) (s : Nat) : Nat := if s = 0 then 0 else ucBeg beg (s - 1)

def ucSlenLoop (s : List UInt8) : Nat → Nat → Nat → Nat
  | 0, _, n => n
  | fuel + 1, p, n =>
    if s.getD p 0 ≠ 0 then ucSlenLoop s fuel (p + ucLen (s.drop p)) (n + 1) else n

/-- `uc_slen`: the number of characters. -/
def ucSlen (s : List UInt8) : Nat := ucSlenLoop s s.length 0 0

def ucChopLoop (s : List UInt8) : Nat → Nat → List Nat
  | 0, _ => []
  | n + 1, p => p :: ucChopLoop s n (ucNext s p)

/-- `uc_chop`: where the characters begin, and the end. -/
def ucChop (s : List UInt8) : List Nat := ucChopLoop s (ucSlen s + 1) 0

def ucChrLoop (s : List UInt8) (off : Int) : Nat → Nat → Nat → Option Nat
  | 0, _, _ => none
  | fuel + 1, p, i =>
    if s.getD p 0 ≠ 0 then
      if (i : Int) = off then some p else ucChrLoop s off fuel (ucNext s p) (i + 1)
    else if off < 0 ∨ (i : Int) = off then some p
    else none

/-- `uc_chr` of a string that is not `NULL`: where a character begins. -/
def ucChr (s : List UInt8) (off : Int) : Option Nat := ucChrLoop s off (s.length + 1) 0 0

def ucOffLoop (s : List UInt8) (e : Nat) : Nat → Nat → Nat → Nat
  | 0, _, i => i
  | fuel + 1, p, i =>
    if p < e ∧ s.getD p 0 ≠ 0 then ucOffLoop s e fuel (ucNext s p) (i + 1) else i

/-- `uc_off`: the number of characters before a position. -/
def ucOff (s : List UInt8) (off : Nat) : Nat := ucOffLoop s off s.length 0 0

/-- `uc_sub`: the characters between two offsets. -/
def ucSub (s : List UInt8) (b e : Int) : List UInt8 :=
  match ucChr s b, ucChr s e with
  | some sbeg, some send => if sbeg ≤ send then (s.drop sbeg).take (send - sbeg) else []
  | _, _ => []

/-- The loop of `uc_cput` over the bytes behind the first one. -/
def ucCputLoop (c : Nat) : Nat → List UInt8
  | 0 => []
  | l + 1 => (0x80 ||| (c >>> (l * 6) &&& 0x3F)).toUInt8 :: ucCputLoop c l

/-- `uc_cput`: the bytes of a code point. -/
def ucCput (c : Nat) : List UInt8 :=
  if 0xFFFF < c then (0xF0 ||| c >>> 18).toUInt8 :: ucCputLoop c 3
  else if 0x7FF < c then (0xE0 ||| c >>> 12).toUInt8 :: ucCputLoop c 2
  else if 0x7F < c then (0xC0 ||| c >>> 6).toUInt8 :: ucCputLoop c 1
  else [c.toUInt8]

/-! ## 2. Bytes -/

theorem getD_ne_zero {s : List UInt8} {i : Nat} (h : s.getD i 0 ≠ 0) : i < s.length := by
  by_contra hle
  rw [List.getD_eq_default _ _ (by omega)] at h
  exact h rfl

theorem getD_drop (s : List UInt8) (n i : Nat) : (s.drop n).getD i 0 = s.getD (n + i) 0 := by
  rw [List.getD_eq_getElem?_getD, List.getD_eq_getElem?_getD, List.getElem?_drop]

theorem ucLen_pos {s : List UInt8} (h : s.getD 0 0 ≠ 0) : 0 < ucLen s := by
  have hpos : 0 < s.getD 0 0 := UInt8.pos_iff_ne_zero.mpr h
  unfold ucLen
  simp only
  split
  · exact Nat.one_pos
  · split
    · omega
    · split
      · omega
      · split <;> omega

theorem ucLen_le (s : List UInt8) : ucLen s ≤ s.length := by
  unfold ucLen
  simp only
  split
  · split
    · next hpos =>
      exact getD_ne_zero (UInt8.pos_iff_ne_zero.mp hpos)
    · exact Nat.zero_le _
  next h1 =>
  have hlen1 := getD_ne_zero (not_or.mp h1).2
  split
  · exact hlen1
  next h2 =>
  have hlen2 := getD_ne_zero (not_or.mp h2).2
  split
  · exact hlen2
  next h3 =>
  have hlen3 := getD_ne_zero (not_or.mp h3).2
  split <;> omega

theorem ucDec_eq_zero {s : List UInt8} (h : s.getD 0 0 = 0) : ucDec s = 0 := by
  unfold ucDec
  simp only
  rw [h]
  rfl

theorem ucNext_eq (s : List UInt8) (p : Nat) : ucNext s p = p + ucLen (s.drop p) := by
  unfold ucNext
  simp only
  split
  · rfl
  · omega

/-- A byte behind the first one of a character. -/
theorem cont_byte : ∀ k : Fin 64, let c := (0x80 ||| k.val).toUInt8
    c ≠ 0 ∧ (c &&& 0x3F).toNat = k ∧ c &&& 0xC0 = 0x80 := by
  decide

/-- The first byte of a character of two bytes. -/
theorem lead_byte_two : ∀ k : Fin 32, let c := (0xC0 ||| k.val).toUInt8
    ~~~ c &&& 0xC0 = 0 ∧ ~~~ c &&& 0x20 ≠ 0 ∧ (c &&& 0x1F).toNat = k := by
  decide

theorem lead_byte_three : ∀ k : Fin 16, let c := (0xE0 ||| k.val).toUInt8
    ~~~ c &&& 0xC0 = 0 ∧ ~~~ c &&& 0x20 = 0 ∧ ~~~ c &&& 0x10 ≠ 0 ∧ (c &&& 0x0F).toNat = k := by
  decide

theorem lead_byte_four : ∀ k : Fin 8, let c := (0xF0 ||| k.val).toUInt8
    ~~~ c &&& 0xC0 = 0 ∧ ~~~ c &&& 0x20 = 0 ∧ ~~~ c &&& 0x10 = 0 ∧ ~~~ c &&& 0x08 ≠ 0 ∧
      (c &&& 0x07).toNat = k := by
  decide

theorem low_bits (n : Nat) : n &&& 0x3F = n % 64 := Nat.and_two_pow_sub_one_eq_mod n 6

/-- The bits of a byte are put behind those of the bytes before it. -/
theorem shift_or_shift {a b : Nat} (n : Nat) (h : b < 64) :
    a <<< (n + 6) ||| b <<< n = (a * 64 + b) <<< n := by
  rw [Nat.add_comm n 6, Nat.shiftLeft_add, ← Nat.shiftLeft_or_distrib,
    ← Nat.shiftLeft_add_eq_or_of_lt (show b < 2 ^ 6 from h), Nat.shiftLeft_eq a 6]

/-! ## 3. A code point and its bytes -/

/-- What is put is what is read again, whatever follows. -/
theorem ucDec_ucCput {c : Nat} (hpos : 0 < c) (hlt : c < 0x200000) (r : List UInt8) :
    ucLen (ucCput c ++ r) = (ucCput c).length ∧ ucDec (ucCput c ++ r) = c := by
  have hlow (k : Nat) : k % 64 < 64 := Nat.mod_lt k (by decide)
  have hcont (k : Nat) := cont_byte ⟨k % 64, hlow k⟩
  simp only at hcont
  unfold ucCput
  split
  · have hlead := lead_byte_four ⟨c >>> 18, by rw [Nat.shiftRight_eq_div_pow]; omega⟩
    simp only at hlead
    simp only [ucCputLoop, low_bits, List.cons_append, List.nil_append]
    unfold ucLen ucDec bitsOf
    simp only [List.getD_cons_zero, List.getD_cons_succ, hlead, hcont, ne_eq, not_true_eq_false,
      not_false_eq_true, or_self, if_true, if_false, List.length_cons, List.length_nil, true_and]
    rw [shift_or_shift 12 (hlow _), shift_or_shift 6 (hlow _), shift_or_shift 0 (hlow _)]
    simp only [Nat.shiftRight_eq_div_pow, Nat.shiftLeft_zero]
    omega
  split
  · have hlead := lead_byte_three ⟨c >>> 12, by rw [Nat.shiftRight_eq_div_pow]; omega⟩
    simp only at hlead
    simp only [ucCputLoop, low_bits, List.cons_append, List.nil_append]
    unfold ucLen ucDec bitsOf
    simp only [List.getD_cons_zero, List.getD_cons_succ, hlead, hcont, ne_eq, not_true_eq_false,
      not_false_eq_true, true_or, or_self, if_true, if_false, List.length_cons, List.length_nil,
      true_and]
    rw [shift_or_shift 6 (hlow _), shift_or_shift 0 (hlow _)]
    simp only [Nat.shiftRight_eq_div_pow, Nat.shiftLeft_zero]
    omega
  split
  · have hlead := lead_byte_two ⟨c >>> 6, by rw [Nat.shiftRight_eq_div_pow]; omega⟩
    simp only at hlead
    simp only [ucCputLoop, low_bits, List.cons_append, List.nil_append]
    unfold ucLen ucDec bitsOf
    simp only [List.getD_cons_zero, List.getD_cons_succ, hlead, hcont, ne_eq, not_true_eq_false,
      not_false_eq_true, true_or, or_self, if_true, if_false, List.length_cons, List.length_nil,
      true_and]
    rw [shift_or_shift 0 (hlow _)]
    simp only [Nat.shiftRight_eq_div_pow, Nat.shiftLeft_zero]
    omega
  · next h3 h2 h1 =>
    have hascii : ∀ k : Fin 128, ~~~ k.val.toUInt8 &&& 0xC0 ≠ 0 ∧ k.val.toUInt8.toNat = k.val := by
      decide
    have hc := hascii ⟨c, by omega⟩
    simp only at hc
    have hlt : (0 : UInt8) < c.toUInt8 := by
      rw [UInt8.lt_iff_toNat_lt, hc.2]
      exact hpos
    rw [List.singleton_append]
    unfold ucLen ucDec
    simp only [List.getD_cons_zero, hc, ne_eq, not_false_eq_true, true_or, if_true, if_pos hlt,
      List.length_singleton, and_self]

theorem low_byte (k : Nat) : (0x80 ||| k % 64).toUInt8 = UInt8.ofNat (k % 0x40 + 0x80) := by
  have hall : ∀ k : Fin 64, (0x80 ||| k.val).toUInt8 = UInt8.ofNat (k.val + 0x80) := by decide
  exact hall ⟨k % 64, Nat.mod_lt k (by decide)⟩

/-- The bytes are those of UTF-8. -/
theorem ucCput_toNat (ch : Char) : ucCput ch.toNat = String.utf8EncodeChar ch := by
  have hmax : ch.val.toNat < 0x110000 := by
    rcases ch.valid with h | h
    · exact Nat.lt_trans h (by decide)
    · exact h.2
  show ucCput ch.val.toNat = _
  rw [String.utf8EncodeChar]
  generalize ch.val.toNat = v at hmax
  unfold ucCput
  simp only [ucCputLoop, low_bits, low_byte, Nat.shiftRight_eq_div_pow]
  split
  · next h4 =>
    have hlead : ∀ k : Fin 8, (0xF0 ||| k.val).toUInt8 = UInt8.ofNat (k.val % 0x08 + 0xF0) := by
      decide
    rw [if_neg (by omega), if_neg (by omega), if_neg (by omega)]
    apply congrArg₂ List.cons (hlead ⟨v / 2 ^ 18, by omega⟩)
    simp only [Nat.reduceMul, Nat.reducePow, Nat.div_one]
  split
  · next h4 h3 =>
    have hlead : ∀ k : Fin 16, (0xE0 ||| k.val).toUInt8 = UInt8.ofNat (k.val % 0x10 + 0xE0) := by
      decide
    rw [if_neg (by omega), if_neg (by omega), if_pos (by omega)]
    apply congrArg₂ List.cons (hlead ⟨v / 2 ^ 12, by omega⟩)
    simp only [Nat.reduceMul, Nat.reducePow, Nat.div_one]
  split
  · next h4 h3 h2 =>
    have hlead : ∀ k : Fin 32, (0xC0 ||| k.val).toUInt8 = UInt8.ofNat (k.val % 0x20 + 0xC0) := by
      decide
    rw [if_neg (by omega), if_pos (by omega)]
    apply congrArg₂ List.cons (hlead ⟨v / 2 ^ 6, by omega⟩)
    simp only [Nat.reduceMul, Nat.reducePow, Nat.div_one]
  · next h4 h3 h2 =>
    rw [if_pos (by omega)]

theorem toNat_pos {ch : Char} (h : ch ≠ '\x00') : 0 < ch.toNat := by
  refine Nat.pos_of_ne_zero fun hzero => h ?_
  rw [← Char.ofNat_toNat ch, hzero]

theorem toNat_lt (ch : Char) : ch.toNat < 0x200000 := by
  rcases ch.valid with h | h
  · exact Nat.lt_trans h (by decide)
  · exact Nat.lt_trans h.2 (by decide)

/-- `uc_code` and the `uc_dec` of the regular expressions read the same code point. -/
theorem ucCode_eq_ucDec (s : List UInt8) : ucCode s = ucDec s := rfl

/-- A character is read as what it is. -/
theorem ucDec_encode {ch : Char} (h : ch ≠ '\x00') (r : List UInt8) :
    ucLen (String.utf8EncodeChar ch ++ r) = (String.utf8EncodeChar ch).length ∧
      ucDec (String.utf8EncodeChar ch ++ r) = ch.toNat := by
  rw [← ucCput_toNat]
  exact ucDec_ucCput (toNat_pos h) (toNat_lt ch) r

/-! ## 4. The characters of a string -/

/-- The parts are the characters that `uc_len` finds in the bytes. -/
def IsChars : List (List UInt8) → Prop
  | [] => True
  | c :: cs => (∀ b ∈ c, b ≠ 0) ∧ c ≠ [] ∧ ucLen (c ++ cs.flatten) = c.length ∧ IsChars cs

/-- The bytes of a text. -/
def encode (cs : List Char) : List UInt8 := (cs.map String.utf8EncodeChar).flatten

theorem encode_append (cs ds : List Char) : encode (cs ++ ds) = encode cs ++ encode ds := by
  rw [encode, List.map_append, List.flatten_append, encode, encode]

theorem encode_cons (c : Char) (cs : List Char) :
    encode (c :: cs) = String.utf8EncodeChar c ++ encode cs := by
  rw [encode, List.map_cons, List.flatten_cons, encode]

theorem IsChars.drop {cs : List (List UInt8)} (h : IsChars cs) (k : Nat) : IsChars (cs.drop k) := by
  induction k generalizing cs with
  | zero => exact h
  | succ k ih =>
    cases cs with
    | nil => trivial
    | cons c cs => exact ih h.2.2.2

def ucSplitLoop : Nat → List UInt8 → List (List UInt8)
  | 0, _ => []
  | fuel + 1, s =>
    if s = [] then [] else s.take (ucLen s) :: ucSplitLoop fuel (s.drop (ucLen s))

/-- The characters of a string. -/
def ucSplit (s : List UInt8) : List (List UInt8) := ucSplitLoop s.length s

theorem isChars_ucSplit {s : List UInt8} (h : ∀ b ∈ s, b ≠ 0) :
    IsChars (ucSplit s) ∧ (ucSplit s).flatten = s := by
  suffices hloop : ∀ fuel (s : List UInt8), s.length ≤ fuel → (∀ b ∈ s, b ≠ 0) →
      IsChars (ucSplitLoop fuel s) ∧ (ucSplitLoop fuel s).flatten = s from
    hloop s.length s (Nat.le_refl _) h
  intro fuel
  induction fuel with
  | zero =>
    intro s hs _
    rw [List.eq_nil_of_length_eq_zero (Nat.le_zero.mp hs)]
    exact ⟨trivial, rfl⟩
  | succ fuel ih =>
    intro s hs h
    rw [ucSplitLoop]
    split
    · next hnil =>
      rw [hnil]
      exact ⟨trivial, rfl⟩
    · next hne =>
      have hfirst : s.getD 0 0 ≠ 0 := by
        obtain ⟨c, t, rfl⟩ := List.exists_cons_of_ne_nil hne
        exact h c List.mem_cons_self
      have hpos := ucLen_pos hfirst
      have hle := ucLen_le s
      obtain ⟨hchars, hflat⟩ := ih (s.drop (ucLen s)) (by rw [List.length_drop]; omega)
        fun b hb => h b (List.mem_of_mem_drop hb)
      rw [List.flatten_cons, hflat, List.take_append_drop]
      refine ⟨⟨fun b hb => h b (List.mem_of_mem_take hb), ?_, ?_, hchars⟩, rfl⟩
      · rw [← List.length_pos_iff, List.length_take]
        omega
      · rw [hflat, List.take_append_drop, List.length_take, Nat.min_eq_left hle]

/-- No byte of a character is a NUL. -/
theorem encodeChar_ne_zero {ch : Char} (h : ch ≠ '\x00') :
    ∀ b ∈ String.utf8EncodeChar ch, b ≠ 0 := by
  obtain ⟨c, t, hencode, -, ht, hnil⟩ := Text.encode_cons ch
  have hdec := (ucDec_encode h []).2
  rw [hencode, List.cons_append, List.append_nil] at hdec
  rw [hencode]
  refine List.forall_mem_cons.mpr ⟨fun hc => ?_, fun d hd hzero => ?_⟩
  · have hpos := toNat_pos h
    rw [← hdec, ucDec_eq_zero (show (c :: t).getD 0 0 = 0 from hc)] at hpos
    exact Nat.lt_irrefl 0 hpos
  · have hcont := ht d hd
    rw [hzero] at hcont
    exact absurd hcont (by decide)

theorem isChars_encode {cs : List Char} (h : ∀ c ∈ cs, c ≠ '\x00') :
    IsChars (cs.map String.utf8EncodeChar) := by
  induction cs with
  | nil => trivial
  | cons ch cs ih =>
    obtain ⟨hch, hcs⟩ := List.forall_mem_cons.mp h
    obtain ⟨c, t, hencode, -⟩ := Text.encode_cons ch
    refine ⟨encodeChar_ne_zero hch, ?_, (ucDec_encode hch _).1, ih hcs⟩
    rw [hencode]
    exact List.cons_ne_nil c t

section
variable {cs : List (List UInt8)} {k : Nat}

theorem IsChars.cons_drop (h : IsChars cs) (hk : k < cs.length) :
    IsChars (cs[k] :: cs.drop (k + 1)) := by
  rw [List.cons_getElem_drop_succ]
  exact h.drop k

/-- What a place holds, and how long it is. -/
theorem IsChars.at (h : IsChars cs) (hk : k < cs.length) :
    ucLen (cs.flatten.drop (start cs k)) = cs[k].length ∧
      cs.flatten.getD (start cs k) 0 ≠ 0 := by
  obtain ⟨hb, hne, hlen, -⟩ := h.cons_drop hk
  have hdrop : cs.flatten.drop (start cs k) = cs[k] ++ (cs.drop (k + 1)).flatten := by
    rw [drop_start, ← List.flatten_cons, List.cons_getElem_drop_succ]
  refine ⟨by rw [hdrop, hlen], ?_⟩
  have hget := getD_drop cs.flatten (start cs k) 0
  rw [hdrop] at hget
  show cs.flatten.getD (start cs k + 0) 0 ≠ 0
  rw [← hget]
  cases hc : cs[k] with
  | nil => exact absurd hc hne
  | cons b t => exact hb b (by rw [hc]; exact List.mem_cons_self)

theorem start_end : cs.flatten.getD (start cs cs.length) 0 = 0 := by
  rw [start_length]
  exact List.getD_eq_default _ _ (Nat.le_refl _)

theorem IsChars.ucNext (h : IsChars cs) (hk : k < cs.length) :
    ucNext cs.flatten (start cs k) = start cs (k + 1) := by
  rw [ucNext_eq, (h.at hk).1, start_succ hk]

theorem IsChars.lt_succ (h : IsChars cs) (hk : k < cs.length) : start cs k < start cs (k + 1) := by
  have hlen := (h.at hk).1
  have hpos := ucLen_pos (s := cs.flatten.drop (start cs k)) (by
    rw [getD_drop, Nat.add_zero]
    exact (h.at hk).2)
  rw [start_succ hk]
  omega

theorem IsChars.length_le (h : IsChars cs) : cs.length ≤ cs.flatten.length := by
  induction cs with
  | nil => exact Nat.le_refl 0
  | cons c cs ih =>
    have hc := List.length_pos_iff.mpr h.2.1
    have hcs := ih h.2.2.2
    rw [List.flatten_cons, List.length_append, List.length_cons]
    omega

theorem IsChars.start_lt (h : IsChars cs) {i j : Nat} (hij : i < j) (hj : j ≤ cs.length) :
    start cs i < start cs j :=
  Nat.lt_of_lt_of_le (h.lt_succ (by omega)) (start_mono hij)

/-! ## 5. Places and numbers of characters -/

theorem IsChars.ucSlenLoop (h : IsChars cs) (fuel n : Nat) (hk : k ≤ cs.length)
    (hfuel : cs.length - k ≤ fuel) :
    ucSlenLoop cs.flatten fuel (start cs k) n = n + (cs.length - k) := by
  induction fuel generalizing k n with
  | zero =>
    rw [Neatvi.ucSlenLoop]
    omega
  | succ fuel ih =>
    rw [Neatvi.ucSlenLoop]
    rcases Nat.lt_or_eq_of_le hk with hk | rfl
    · rw [if_pos (h.at hk).2, (h.at hk).1, ← start_succ hk, ih (n + 1) hk (by omega)]
      omega
    · rw [if_neg (not_not.mpr start_end)]
      omega

theorem IsChars.ucSlen (h : IsChars cs) : ucSlen cs.flatten = cs.length := by
  have hloop := h.ucSlenLoop cs.flatten.length 0 (Nat.zero_le _) (by
    have := h.length_le
    omega)
  rw [Nat.zero_add, Nat.sub_zero] at hloop
  exact hloop

theorem IsChars.ucChopLoop (h : IsChars cs) (n : Nat) (hk : k + n ≤ cs.length + 1) :
    ucChopLoop cs.flatten n (start cs k) = (List.range' k n).map (start cs) := by
  induction n generalizing k with
  | zero => rfl
  | succ n ih =>
    rw [Neatvi.ucChopLoop, List.range'_succ, List.map_cons]
    rcases Nat.eq_zero_or_pos n with rfl | hn
    · rfl
    · rw [h.ucNext (by omega), ih (by omega)]

theorem IsChars.ucChop (h : IsChars cs) :
    ucChop cs.flatten = (List.range (cs.length + 1)).map (start cs) := by
  rw [Neatvi.ucChop, h.ucSlen, List.range_eq_range']
  exact h.ucChopLoop _ (Nat.le_of_eq (Nat.zero_add _))

theorem IsChars.ucChrLoop (h : IsChars cs) (off : Int) (fuel : Nat) (hk : k ≤ cs.length)
    (hfuel : cs.length - k < fuel) :
    ucChrLoop cs.flatten off fuel (start cs k) k =
      if off < 0 then some cs.flatten.length
      else if k ≤ off ∧ off ≤ cs.length then some (start cs off.toNat) else none := by
  induction fuel generalizing k with
  | zero => omega
  | succ fuel ih =>
    rw [Neatvi.ucChrLoop]
    rcases Nat.lt_or_eq_of_le hk with hk | rfl
    · rw [if_pos (h.at hk).2]
      split
      · next heq =>
        subst heq
        rw [if_neg (by omega), if_pos ⟨by omega, by omega⟩, Int.toNat_natCast]
      · next hne =>
        rw [h.ucNext hk, ih hk (by omega)]
        refine if_congr Iff.rfl rfl (if_congr ?_ rfl rfl)
        omega
    · rw [if_neg (not_not.mpr start_end)]
      split
      · next hend =>
        split
        · rw [start_length]
        · next hneg =>
          have heq : ((cs.length : Nat) : Int) = off := by omega
          subst heq
          rw [if_pos ⟨by omega, by omega⟩, Int.toNat_natCast]
      · next hend =>
        rw [if_neg (by omega), if_neg (by omega)]

theorem IsChars.ucChr (h : IsChars cs) (off : Int) :
    ucChr cs.flatten off =
      if off < 0 then some cs.flatten.length
      else if off ≤ cs.length then some (start cs off.toNat) else none := by
  have hloop := h.ucChrLoop off (cs.flatten.length + 1) (Nat.zero_le _) (by
    have := h.length_le
    omega)
  refine hloop.trans ?_
  split
  · rfl
  · exact if_congr (by omega) rfl rfl

theorem IsChars.ucOffLoop (h : IsChars cs) {j : Nat} (fuel : Nat) (hk : k ≤ j) (hj : j ≤ cs.length)
    (hfuel : j - k ≤ fuel) :
    ucOffLoop cs.flatten (start cs j) fuel (start cs k) k = j := by
  induction fuel generalizing k with
  | zero =>
    rw [Neatvi.ucOffLoop]
    omega
  | succ fuel ih =>
    rw [Neatvi.ucOffLoop]
    rcases Nat.lt_or_eq_of_le hk with hk | rfl
    · rw [if_pos ⟨h.start_lt hk hj, (h.at (by omega)).2⟩, h.ucNext (by omega),
        ih hk (by omega)]
    · exact if_neg fun hlt => Nat.lt_irrefl _ hlt.1

theorem IsChars.ucOff (h : IsChars cs) {j : Nat} (hj : j ≤ cs.length) :
    ucOff cs.flatten (start cs j) = j := by
  have hle := h.length_le
  exact h.ucOffLoop _ (Nat.zero_le j) hj (by omega)

theorem IsChars.ucSub (h : IsChars cs) {i j : Nat} (hij : i ≤ j) (hj : j ≤ cs.length) :
    ucSub cs.flatten i j = ((cs.drop i).take (j - i)).flatten := by
  have hchr (m : Nat) (hm : m ≤ cs.length) : Neatvi.ucChr cs.flatten m = some (start cs m) := by
    rw [h.ucChr, if_neg (by omega), if_pos (by omega), Int.toNat_natCast]
  unfold Neatvi.ucSub
  simp only [hchr i (by omega), hchr j hj]
  have hsub : start cs j - start cs i = start (cs.drop i) (j - i) := by
    have hadd : start cs (i + (j - i)) = _ := start_add i (j - i)
    rw [Nat.add_sub_cancel' hij] at hadd
    omega
  rw [if_pos (start_mono hij), drop_start, hsub]
  exact List.take_sum_flatten (cs.drop i) (j - i)

end

/-! ## 6. Text -/

theorem continuation_bits : ∀ c : UInt8, c &&& 0xC0 = 0x80 ↔ Text.isContinuation c := by
  decide +kernel

theorem getD_append_drop {s r : List UInt8} {p : Nat} (c : List UInt8) (h : s.drop p = c ++ r)
    {m : Nat} (hm : m < c.length) : s.getD (p + m) 0 = c.getD m 0 := by
  rw [← getD_drop, h, List.getD_append _ _ _ _ hm]

/-- From any byte of a character the first one is found. -/
theorem ucBeg_eq {s r : List UInt8} {p : Nat} {ch : Char}
    (h : s.drop p = String.utf8EncodeChar ch ++ r) {m : Nat}
    (hm : m < (String.utf8EncodeChar ch).length) : ucBeg s (p + m) = p := by
  obtain ⟨c, t, hencode, hlen, ht, hnil⟩ := Text.encode_cons ch
  induction m with
  | zero =>
    have hget := getD_append_drop _ h hm
    rw [hencode] at hget
    cases p with
    | zero => rfl
    | succ p =>
      refine if_neg fun hcont => ?_
      -- a continuation byte is no first byte
      rw [show s.getD (p + 1) 0 = c from hget, continuation_bits] at hcont
      rw [Text.utf8CharLen_continuation c hcont] at hlen
      have hascii := hnil.mp (List.eq_nil_of_length_eq_zero (by omega))
      exact Text.not_isContinuation_ascii c hascii hcont
  | succ m ih =>
    have hget := getD_append_drop _ h hm
    rw [hencode, List.length_cons] at hm
    have hmt : m < t.length := by omega
    rw [hencode, List.getD_cons_succ, List.getD_eq_getElem _ _ hmt] at hget
    have hcont : s.getD (p + m + 1) 0 &&& 0xC0 = 0x80 := by
      rw [show s.getD (p + m + 1) 0 = t[m] from hget, continuation_bits]
      exact ht _ (List.getElem_mem _)
    show (if s.getD (p + m + 1) 0 &&& 0xC0 = 0x80 then ucBeg s (p + m) else p + m + 1) = p
    rw [if_pos hcont]
    exact ih (by rw [hencode, List.length_cons]; omega)

section
variable {cs : List Char} {k : Nat}

/-- Where a character of the text begins among its bytes. -/
def textPos (cs : List Char) (k : Nat) : Nat := start (cs.map String.utf8EncodeChar) k

theorem drop_textPos (hk : k < cs.length) :
    (encode cs).drop (textPos cs k) =
      String.utf8EncodeChar cs[k] ++ encode (cs.drop (k + 1)) := by
  rw [encode, textPos, drop_start, ← List.map_drop, ← List.cons_getElem_drop_succ (h := hk),
    List.map_cons, List.flatten_cons, encode]

theorem textPos_length : textPos cs cs.length = (encode cs).length := by
  rw [textPos, ← List.length_map String.utf8EncodeChar, start_length]
  rfl

theorem textPos_lt {i j : Nat} (h : ∀ c ∈ cs, c ≠ '\x00') (hij : i < j) (hj : j ≤ cs.length) :
    textPos cs i < textPos cs j :=
  (isChars_encode h).start_lt hij (by rwa [List.length_map])

theorem textPos_succ (hk : k < cs.length) :
    textPos cs (k + 1) = textPos cs k + (String.utf8EncodeChar cs[k]).length := by
  rw [textPos, start_succ (by rwa [List.length_map]), List.getElem_map]
  rfl

theorem ucPrev_textPos (hk : k < cs.length) :
    ucPrev (encode cs) (textPos cs (k + 1)) = textPos cs k := by
  obtain ⟨c, t, hencode, -⟩ := Text.encode_cons cs[k]
  have hlen : (String.utf8EncodeChar cs[k]).length = t.length + 1 := by
    rw [hencode, List.length_cons]
  have hbeg := ucBeg_eq (drop_textPos hk) (m := t.length) (by omega)
  unfold ucPrev
  rw [textPos_succ hk, hlen, if_neg (by omega)]
  exact hbeg

/-- On text without a NUL, offsets in characters and places among the bytes correspond. -/
theorem uc_text (h : ∀ c ∈ cs, c ≠ '\x00') :
    ucSlen (encode cs) = cs.length ∧
    (∀ off : Int, ucChr (encode cs) off =
      if off < 0 then some (encode cs).length
      else if off ≤ cs.length then some (textPos cs off.toNat) else none) ∧
    (∀ k ≤ cs.length, ucOff (encode cs) (textPos cs k) = k) ∧
    ucChop (encode cs) = (List.range (cs.length + 1)).map (textPos cs) ∧
    (∀ k, (hk : k < cs.length) → ucNext (encode cs) (textPos cs k) = textPos cs (k + 1) ∧
      ucPrev (encode cs) (textPos cs (k + 1)) = textPos cs k ∧
      ucCode ((encode cs).drop (textPos cs k)) = cs[k].toNat) ∧
    ∀ i j, i ≤ j → j ≤ cs.length →
      ucSub (encode cs) i j = encode ((cs.drop i).take (j - i)) := by
  have hchars := isChars_encode h
  have hlen : (cs.map String.utf8EncodeChar).length = cs.length := List.length_map _
  refine ⟨?_, fun off => ?_, fun k hk => ?_, ?_, fun k hk => ⟨?_, ucPrev_textPos hk, ?_⟩,
    fun i j hij hj => ?_⟩
  · rw [← hlen]
    exact hchars.ucSlen
  · rw [← hlen]
    exact hchars.ucChr off
  · exact hchars.ucOff (by rwa [hlen])
  · rw [← hlen]
    exact hchars.ucChop
  · exact hchars.ucNext (by rwa [hlen])
  · rw [ucCode_eq_ucDec, drop_textPos hk]
    exact (ucDec_encode (h _ (List.getElem_mem hk)) _).2
  · rw [encode, hchars.ucSub hij (by rwa [hlen]), encode, List.map_take, List.map_drop]

end

/-- Characters of all lengths. -/
theorem uc_text_mixed :
    let cs := "aé水😀\n".toList
    ucSlen (encode cs) = cs.length ∧
    (∀ off : Int, ucChr (encode cs) off =
      if off < 0 then some (encode cs).length
      else if off ≤ cs.length then some (textPos cs off.toNat) else none) ∧
    (∀ k ≤ cs.length, ucOff (encode cs) (textPos cs k) = k) ∧
    ucChop (encode cs) = (List.range (cs.length + 1)).map (textPos cs) ∧
    (∀ k, (hk : k < cs.length) → ucNext (encode cs) (textPos cs k) = textPos cs (k + 1) ∧
      ucPrev (encode cs) (textPos cs (k + 1)) = textPos cs k ∧
      ucCode ((encode cs).drop (textPos cs k)) = cs[k].toNat) ∧
    ∀ i j, i ≤ j → j ≤ cs.length →
      ucSub (encode cs) i j = encode ((cs.drop i).take (j - i)) :=
  @uc_text "aé水😀\n".toList (by simp)

end Neatvi
