import ZteWifi.Neatvi.Groups
import ZteWifi.Neatvi.Rstr

/-!
# Lines of text

What the searches see of a line that is text: where its characters are, what stands at them, and how
they are compared with a string, byte by byte or by their code points.
-/

open Ascii Pieces

namespace Neatvi

/-! ## 1. Literals -/

theorem matchCase_cons (icase : Bool) (a b : UInt8) (s r : List UInt8) :
    matchCase icase (a :: s) (b :: r) = (differ icase a b || matchCase icase s r) := by
  rw [matchCase]
  cases differ icase a b <;> rfl

theorem encode_low {ch : Char} (h : ch.toNat < 128) :
    String.utf8EncodeChar ch = [ch.toNat.toUInt8] := by
  rw [← ucCput_toNat, ucCput, if_neg (by omega), if_neg (by omega), if_neg (by omega)]

theorem encode_high {ch : Char} (h : 128 ≤ ch.toNat) :
    ∀ c ∈ String.utf8EncodeChar ch, 0x80 ≤ c := by
  have hne : ch ≠ '\x00' := by
    rintro rfl
    exact absurd h (by decide)
  obtain ⟨c, t, hencode, -, ht, hnil⟩ := Text.encode_cons ch
  have hdec := (ucDec_encode hne []).2
  rw [hencode, List.append_nil] at hdec
  rw [hencode]
  refine List.forall_mem_cons.mpr ⟨?_, fun d hd => ?_⟩
  · rw [← UInt8.not_lt]
    intro hlow
    have hascii := ucDec_ascii (show (c :: t).getD 0 0 < 0x80 from hlow)
    have hlt := UInt8.lt_iff_toNat_lt.mp hlow
    rw [hdec] at hascii
    rw [List.getD_cons_zero] at hascii
    have : (0x80 : UInt8).toNat = 128 := rfl
    omega
  · have hcont := ht d hd
    rw [Text.isContinuation, Bool.and_eq_true, decide_eq_true_eq] at hcont
    exact hcont.1

/-- A line, with its newline. -/
def lineOf (cs : List Char) : List UInt8 := encode (cs ++ ['\n'])

/-- The characters of a line. -/
def Lineal (cs : List Char) : Prop := ∀ c ∈ cs, c ≠ '\x00' ∧ c ≠ '\n'

section
variable {cs : List Char} {k : Nat}

theorem Lineal.line (h : Lineal cs) : ∀ c ∈ cs ++ ['\n'], c ≠ '\x00' := by
  intro c hc
  rcases List.mem_append.mp hc with hc | hc
  · exact (h c hc).1
  · rw [List.mem_singleton.mp hc]
    decide

theorem lineOf_eq (cs : List Char) : lineOf cs = encode cs ++ [nl] := encode_append cs ['\n']

/-- No other character has the byte of the newline. -/
theorem nl_notMem_encodeChar {ch : Char} (h : ch ≠ '\n') :
    nl ∉ String.utf8EncodeChar ch := by
  intro hmem
  rcases Nat.lt_or_ge ch.toNat 128 with hlt | hge
  · rw [encode_low hlt, List.mem_singleton] at hmem
    have hall : ∀ n : Fin 128, nl = n.val.toUInt8 → n.val = 10 := by decide
    have hten := hall ⟨ch.toNat, hlt⟩ hmem
    exact h (Char.toNat_inj.mp hten)
  · exact absurd (encode_high hge nl hmem) (by decide)

theorem Lineal.nl_notMem (h : Lineal cs) : nl ∉ encode cs := by
  intro hmem
  obtain ⟨p, hp, hnl⟩ := List.mem_flatten.mp hmem
  obtain ⟨ch, hch, rfl⟩ := List.mem_map.mp hp
  exact nl_notMem_encodeChar (h ch hch).2 hnl

theorem Lineal.zero_notMem (h : Lineal cs) : (0 : UInt8) ∉ encode cs := by
  intro hmem
  obtain ⟨p, hp, hzero⟩ := List.mem_flatten.mp hmem
  obtain ⟨ch, hch, rfl⟩ := List.mem_map.mp hp
  exact encodeChar_ne_zero (h ch hch).1 0 hzero rfl

/-- What stands in a line at a byte. -/
theorem Lineal.getD (h : Lineal cs) {i : Nat} (hi : i ≤ (encode cs).length) :
    (lineOf cs).getD i 0 ≠ 0 ∧ ((lineOf cs).getD i 0 = nl ↔ i = (encode cs).length) := by
  rw [lineOf_eq]
  rcases Nat.lt_or_eq_of_le hi with hlt | rfl
  · rw [List.getD_append _ _ _ _ hlt, List.getD_eq_getElem _ _ hlt]
    have hmem := List.getElem_mem hlt
    refine ⟨fun hzero => h.zero_notMem (hzero ▸ hmem), fun hnl => ?_, fun heq => ?_⟩
    · exact absurd (hnl ▸ hmem) h.nl_notMem
    · omega
  · rw [List.getD_append_right _ _ _ _ (Nat.le_refl _), Nat.sub_self]
    exact ⟨by decide, iff_of_true rfl rfl⟩

end

end Neatvi
