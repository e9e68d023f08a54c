import ZteWifi.Text.Lines

/-!
# Lines that are not broken

While a line has room, the routines of the line buffer append to it and nothing else.
-/

open Ascii

namespace LineBuf

/-! ## 1. Printed lines -/

/-- What `flush_line` prints: nothing for a line of spaces. -/
def printLine (l : Line) : List UInt8 :=
  if l.rdropWhile (· = space) = [] then [] else l.rdropWhile (· = space) ++ [nl]

theorem flushLine_eq (line : Line) (tr : Bool) (out : List UInt8) :
    flushLine ⟨line, tr, out⟩ = ⟨[], tr, out ++ printLine line⟩ := by
  rw [flushLine, printLine]
  dsimp only
  split
  · rw [List.append_nil]
  · rw [List.append_assoc]

theorem printLine_append_space (l : Line) : printLine (l ++ [space]) = printLine l := by
  rw [printLine, printLine, List.rdropWhile_concat_pos _ _ _ (by decide)]

/-- A line that ends in no space is printed as it is. -/
theorem printLine_concat (l : Line) {c : UInt8} (hc : c ≠ space) :
    printLine (l ++ [c]) = l ++ [c] ++ [nl] := by
  rw [printLine, List.rdropWhile_concat_neg _ _ _ (by simpa using hc),
    if_neg (List.append_ne_nil_of_right_ne_nil _ (List.cons_ne_nil _ _))]

/-- What is printed of a line that holds only a label, behind which a space is written before it is
flushed. -/
def printLabel (l : Line) : List UInt8 :=
  if l.length = maxLine then (breakLine l).1 ++ [nl] ++ printLine (breakLine l).2 else printLine l

theorem printLabel_whole {l : Line} {c : UInt8} (hc : c ≠ space)
    (h : (l ++ [c]).length = maxLine → space ∉ l ++ [c]) :
    printLabel (l ++ [c]) = printLine (l ++ [c]) := by
  rw [printLabel]
  split
  · next hfull =>
    rw [breakLine_of_notMem (h hfull), printLine_concat l hc, printLine, List.rdropWhile_nil,
      if_pos rfl, List.append_nil]
  · rfl

/-- A full label with a space is broken at the last one. -/
theorem printLabel_broken {p q : Line} {c : UInt8} (hc : c ≠ space) (hq : space ∉ q)
    (hfull : (p ++ space :: q ++ [c]).length = maxLine) :
    printLabel (p ++ space :: q ++ [c]) =
      p.rdropWhile (· = space) ++ nl :: (q ++ [c] ++ [nl]) := by
  have hkept : space ∉ q ++ [c] := by
    rw [List.mem_append, List.mem_singleton, not_or]
    exact ⟨hq, hc.symm⟩
  have hbreak : breakLine (p ++ space :: q ++ [c]) = (p.rdropWhile (· = space), q ++ [c]) := by
    rw [List.append_assoc, List.cons_append, breakLine_append hkept]
  rw [printLabel, if_pos hfull, hbreak, printLine_concat q hc, List.append_assoc,
    List.singleton_append]

/-- Broken it has at most as many bytes as its line, but other ones. -/
theorem printLabel_ne {l : Line} {c : UInt8} (hc : c ≠ space)
    (h : ¬ ((l ++ [c]).length = maxLine → space ∉ l ++ [c])) :
    (printLabel (l ++ [c])).length ≤ (printLine (l ++ [c])).length ∧
      printLabel (l ++ [c]) ≠ printLine (l ++ [c]) := by
  rw [Classical.not_imp, Decidable.not_not] at h
  obtain ⟨hfull, hmem⟩ := h
  have hl : space ∈ l := (List.mem_append.mp hmem).resolve_right fun h =>
    hc (List.mem_singleton.mp h).symm
  obtain ⟨p, q, rfl, hq⟩ := exists_lastSpace hl
  have hcut := length_rdropWhile_le (· = space) p
  rw [printLabel_broken hc hq hfull, printLine_concat _ hc]
  simp only [List.append_assoc, List.cons_append]
  refine ⟨?_, fun heq => ?_⟩
  · simp only [List.length_append, List.length_cons]
    omega
  · -- with as many bytes the line feed stands where the space was
    have hsame : (p.rdropWhile (· = space)).length = p.length := by
      have hlen := congrArg List.length heq
      simp only [List.length_append, List.length_cons] at hlen
      omega
    exact absurd (List.cons.inj (List.append_inj heq hsame).2).1 (by decide)

theorem length_printLabel_le (l : Line) {c : UInt8} (hc : c ≠ space) :
    (printLabel (l ++ [c])).length ≤ (printLine (l ++ [c])).length := by
  by_cases h : (l ++ [c]).length = maxLine → space ∉ l ++ [c]
  · rw [printLabel_whole hc h]
  · exact (printLabel_ne hc h).1

theorem printLabel_eq_iff (l : Line) {c : UInt8} (hc : c ≠ space) :
    printLabel (l ++ [c]) = printLine (l ++ [c]) ↔
      ((l ++ [c]).length = maxLine → space ∉ l ++ [c]) :=
  ⟨fun heq => by_contra fun h => (printLabel_ne hc h).2 heq, printLabel_whole hc⟩

/-! ## 2. Appending with room -/

section
variable {line : Line} {tr : Bool} {out : List UInt8}

theorem appendByteNc_fits {c : UInt8} (h : line.length < maxLine) :
    appendByteNc c ⟨line, tr, out⟩ = ⟨line ++ [c], tr, out⟩ :=
  if_neg (by simp only [maxLine, lineCap] at *; omega)

theorem appendByte_fits {c : UInt8} (h : line.length < maxLine) :
    appendByte c ⟨line, tr, out⟩ = ⟨line ++ [c], tr, out⟩ := by
  rw [appendByte, if_neg (Nat.not_le.mpr h), appendByteNc_fits h]

theorem reserve_fits {n : Nat} (h : line.length + n ≤ maxLine) :
    reserve n ⟨line, tr, out⟩ = ⟨line, tr, out⟩ := if_neg (Nat.not_lt.mpr h)

theorem appendAllNc_fits {cs : List UInt8} (h : line.length + cs.length ≤ maxLine) :
    appendAllNc cs ⟨line, tr, out⟩ = ⟨line ++ cs, tr, out⟩ := by
  induction cs generalizing line with
  | nil => rw [List.append_nil]; rfl
  | cons c cs ih =>
    rw [List.length_cons] at h
    change appendAllNc cs (appendByteNc c _) = _
    rw [appendByteNc_fits (by omega), ih (by rw [List.length_append, List.length_singleton]; omega),
      List.append_assoc, List.singleton_append]

theorem appendUtf8_fits {cp : Nat} (h : line.length + (utf8Bytes cp).length ≤ maxLine) :
    appendUtf8 cp ⟨line, tr, out⟩ = ⟨line ++ utf8Bytes cp, tr, out⟩ := by
  rw [appendUtf8, reserve_fits h, appendAllNc_fits h]

theorem appendStr_fits {s : List UInt8} (hs : ∀ c ∈ s, c < 0x80)
    (h : line.length + s.length ≤ maxLine) :
    appendStr s ⟨line, tr, out⟩ = ⟨line ++ s, tr, out⟩ := by
  rw [appendStr]
  induction s generalizing line with
  | nil => rw [List.append_nil]; rfl
  | cons c s ih =>
    rw [List.length_cons] at h
    rw [appendStrLoop, if_pos (hs c List.mem_cons_self), appendByte_fits (by omega),
      ih (fun c hc => hs c (List.mem_cons_of_mem _ hc))
        (by rw [List.length_append, List.length_singleton]; omega),
      List.append_assoc, List.singleton_append]

/-- The line after `append_space`. -/
def addSpace (line : Line) : Line :=
  if line = [] ∨ line.getLast? = some space then line else line ++ [space]

theorem length_le_addSpace (line : Line) : line.length ≤ (addSpace line).length := by
  rw [addSpace]
  split
  · exact Nat.le_refl _
  · rw [List.length_append]
    omega

theorem appendSpace_fits (h : (addSpace line).length ≤ maxLine) :
    appendSpace ⟨line, tr, out⟩ = ⟨addSpace line, tr, out⟩ := by
  rw [appendSpace, addSpace] at *
  by_cases hline : line = [] ∨ line.getLast? = some space
  · rw [if_pos hline, if_neg (by tauto)]
  · rw [if_neg hline, List.length_append, List.length_singleton] at h
    rw [if_neg hline, if_pos (by tauto), appendByte_fits (by omega)]

theorem indentWidth_le (depth : Nat) : indentWidth depth ≤ maxLine / 2 := by
  unfold indentWidth
  split
  · exact Nat.le_refl _
  · next h => exact Nat.not_lt.mp h

theorem outputIndent_nil (depth : Nat) :
    outputIndent depth ⟨[], tr, out⟩ =
      ⟨List.replicate (indentWidth depth) space, tr, out⟩ := by
  have hwidth : indentWidth depth ≤ maxLine :=
    Nat.le_trans (indentWidth_le depth) (Nat.div_le_self _ _)
  change appendAllNc _ ⟨[], tr, out⟩ = _
  rw [appendAllNc_fits (by rw [List.length_replicate, List.length_nil]; omega), List.nil_append]

/-- `output_indent` on any line. -/
theorem outputIndent_eq (depth : Nat) (line : Line) (tr : Bool) (out : List UInt8) :
    outputIndent depth ⟨line, tr, out⟩ =
      ⟨List.replicate (indentWidth depth) space, tr, out ++ printLine line⟩ := by
  rw [← outputIndent_nil, outputIndent, outputIndent]
  dsimp only
  by_cases hlen : line.length > 0
  · rw [if_pos hlen, flushLine_eq]
    rfl
  · rw [if_neg hlen, List.eq_nil_of_length_eq_zero (Nat.eq_zero_of_not_pos hlen)]
    show _ = appendAllNc _ ⟨[], tr, out ++ []⟩
    rw [List.append_nil]

/-- A label with its mark and a space, on a line of its own.  On a line that is full the space breaks
it before it is flushed. -/
theorem label_line {c : UInt8} (hc : c < 0x80 ∧ c ≠ space) (h : line.length < maxLine) :
    flushLine (appendStr [c, space] ⟨line, tr, out⟩) =
      ⟨[], tr, out ++ printLabel (line ++ [c])⟩ := by
  have hlen : (line ++ [c]).length = line.length + 1 := List.length_append
  by_cases hroom : line.length + 2 ≤ maxLine
  · have hascii : ∀ b ∈ [c, space], b < 0x80 := by
      rw [List.forall_mem_cons, List.forall_mem_singleton]
      exact ⟨hc.1, by decide⟩
    have happend : line ++ [c, space] = line ++ [c] ++ [space] := by
      rw [List.append_assoc, List.singleton_append]
    rw [appendStr_fits hascii hroom, flushLine_eq, happend, printLine_append_space, printLabel,
      if_neg (by omega)]
  · have hfull : (line ++ [c]).length = maxLine := by omega
    have hkept := length_kept_le (line ++ [c])
    -- the mark fills the line, and the space behind it makes `append_byte` break it
    rw [appendStr, appendStrLoop, if_pos hc.1, appendByte_fits h, appendStrLoop,
      if_pos (by decide), appendStrLoop, appendByte, if_pos (Nat.le_of_eq hfull.symm), wrapLine_eq,
      appendByteNc_fits (Nat.lt_of_le_of_lt hkept (by omega)), flushLine_eq,
      printLine_append_space, printLabel, if_pos hfull]
    simp only [List.append_assoc]

end

/-! ## 3. UTF-8 -/

/-- A continuation byte, whose high bits are a constant. -/
theorem or_low_bits (n : Nat) : 0x80 ||| n &&& 0x3F = n % 0x40 + 0x80 := by
  have hlow : n &&& 0x3F = n % 2 ^ 6 := Nat.and_two_pow_sub_one_eq_mod n 6
  have hlt : n % 2 ^ 6 < 2 ^ 6 := Nat.mod_lt n (by decide)
  rw [hlow, Nat.add_comm]
  exact (Nat.two_pow_add_eq_or_of_lt hlt 2).symm

/-- A lead byte with `6 - k` bits of payload. -/
theorem or_high_bits {k n : Nat} (a : Nat) (hn : n < 2 ^ k) :
    2 ^ k * a ||| n = n % 2 ^ k + 2 ^ k * a := by
  rw [← Nat.two_pow_add_eq_or_of_lt hn, Nat.mod_eq_of_lt hn, Nat.add_comm]

/-- `append_utf8` encodes as UTF-8 does. -/
theorem utf8Bytes_eq (c : Char) : utf8Bytes c.toNat = String.utf8EncodeChar c := by
  have hmax : c.toNat < 0x110000 := by
    have h := c.valid
    rcases h with h | h
    · exact Nat.lt_trans h (by decide)
    · exact h.2
  change utf8Bytes c.val.toNat = _
  rw [utf8Bytes, String.utf8EncodeChar]
  change c.val.toNat < _ at hmax
  generalize c.val.toNat = v at hmax
  simp only [or_low_bits, Nat.shiftRight_eq_div_pow]
  have h2 : v < 0x800 → 0xC0 ||| v / 2 ^ 6 = v / 64 % 0x20 + 0xC0 := fun h =>
    or_high_bits (k := 5) 6 (by omega)
  have h3 : v < 0x10000 → 0xE0 ||| v / 2 ^ 12 = v / 4096 % 0x10 + 0xE0 := fun h =>
    or_high_bits (k := 4) 14 (by omega)
  have h4 : 0xF0 ||| v / 2 ^ 18 = v / 262144 % 0x08 + 0xF0 :=
    or_high_bits (k := 3) 30 (by omega)
  by_cases hv1 : v < 0x80
  · have hle : v ≤ 0x7F := by omega
    rw [if_pos hv1, if_pos hle]
  have hgt1 : ¬ v ≤ 0x7F := by omega
  rw [if_neg hv1, if_neg hgt1]
  by_cases hv2 : v < 0x800
  · have hle : v ≤ 0x7FF := by omega
    rw [if_pos hv2, if_pos hle, h2 hv2]
  have hgt2 : ¬ v ≤ 0x7FF := by omega
  rw [if_neg hv2, if_neg hgt2]
  by_cases hv3 : v < 0x10000
  · have hle : v ≤ 0xFFFF := by omega
    rw [if_pos hv3, if_pos hle, h3 hv3]
  have hgt3 : ¬ v ≤ 0xFFFF := by omega
  rw [if_neg hv3, if_neg hgt3, h4]

end LineBuf
