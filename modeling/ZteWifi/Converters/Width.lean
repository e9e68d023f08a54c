import ZteWifi.H2t.Boundaries
import ZteWifi.J2t.Conservation
import ZteWifi.Text.Width

/-!
# The limit on the length of a line

Both converters state that their lines have at most `MAX_LINE` bytes.  They keep to it where every
character fits behind the last space of its line, and only there.
-/

open Ascii LineBuf Text

namespace H2t.Stream

/-! ## 1. The calls of `h2t.c` -/

theorem plain_encode (ch : Char) : (Cmd.str (String.utf8EncodeChar ch)).Plain := by
  obtain ⟨c, t, hencode, hlen, -, hascii⟩ := encode_cons ch
  rw [hencode]
  refine ⟨List.cons_ne_nil _ _, ?_⟩
  by_cases hc : c < 0x80
  · left
    rw [hascii.mpr hc]
    exact List.forall_mem_singleton.mpr hc
  · exact .inr ⟨c, t, rfl, hc, hlen⟩

theorem Decoded.orderly {cs : List Cmd} (h : Decoded cs) : Orderly cs := by
  cases h with
  | @text u _ => exact orderly_bytes (amp :: u)
  | code cp =>
    unfold emitCodePoint
    split
    · exact .nil
    split
    · exact .single trivial trivial rfl
    · exact .single trivial trivial rfl
  | known name =>
    unfold emitKnownEntity
    cases hlookup : knownEntities.lookup name with
    | none => exact .nil
    | some c =>
      show Orderly [c]
      rcases knownEntities_cases (mem_of_lookup hlookup) with heq | ⟨s, heq, hne, hs⟩
      · rw [show c = .space from heq]
        exact .single trivial trivial rfl
      · have hplain : (Cmd.str s).Plain := by
          rcases hs with hascii | ⟨ch, rfl⟩
          · exact ⟨hne, .inl hascii⟩
          · exact plain_encode ch
        rw [show c = .str s from heq]
        exact .single trivial hplain rfl

theorem orderly_textByte {c : UInt8} {s : List UInt8} (h : ValidUtf8 (c :: s)) :
    Orderly (appendTextByte c s).1 := by
  obtain ⟨ch, t, r, hencode, hlen, -, -, heq⟩ := appendTextByte_char h
  have hle := utf8CharLen_le c
  rw [heq]
  split
  · exact .single trivial trivial rfl
  · next hc =>
    exact orderly_char ⟨utf8CharLen_pos c, hle, fun heq => absurd heq (ne_space_of_not_ascii hc)⟩
      (Nat.le_of_eq (Nat.eq_sub_of_add_eq hlen.symm))

theorem orderly_mainStep {c : UInt8} {s : List UInt8} (h : ValidUtf8 (c :: s)) :
    Orderly (mainStep c s).1 := by
  unfold mainStep
  split
  · rcases handleTag_cmds s with htag | htag <;> rw [htag]
    · exact .nil
    · exact .single trivial trivial rfl
  split
  · exact (decodeEntity_reads s).1.orderly
  split
  · exact .single trivial trivial rfl
  split
  · exact .nil
  · exact orderly_textByte h

theorem orderly_commands {input : List UInt8} (h : ValidUtf8 input) : Orderly (commands input) := by
  induction input using turns_induction with
  | nil => exact .nil
  | turn c s ih =>
    rw [commands_cons]
    exact (orderly_mainStep h).append (ih (mainStep_valid h))

end H2t.Stream

/-! ## 2. Both converters -/

namespace Converters

/-- No line is longer than `MAX_LINE` exactly when every character fits. -/
theorem lines_le_iff (input : List UInt8) :
    ((H2t.Stream.main input).stdout = printed (H2t.Stream.lines input) ∧
      ∃ e, J2t.Stream.main input = some e ∧ e.stdout = printed (J2t.Trace.lines input)) ∧
    (ValidUtf8 input → ((∀ l ∈ H2t.Stream.lines input, l.length ≤ maxLine) ↔
      Fits (H2t.Stream.commands input ++ [.flush]) .empty)) ∧
    ((∀ l ∈ J2t.Trace.lines input, l.length ≤ maxLine) ↔
      Fits (J2t.Trace.calls input) .empty) := by
  refine ⟨⟨H2t.Stream.main_stdout input, J2t.Trace.main_stdout input⟩, fun h => ?_, ?_⟩
  · have hflush : Orderly [.flush] := .single trivial trivial rfl
    exact ((H2t.Stream.orderly_commands h).append hflush).linesAll_le_iff
  · exact (J2t.Trace.orderly_calls input).linesAll_le_iff

/-- `x `, `n` letters and a character of four bytes. -/
def widePage (n : Nat) : List UInt8 :=
  bytes "x " ++ (List.replicate n 0x61 ++ [0xF0, 0x9F, 0x98, 0x80])

theorem validUtf8_widePage (n : Nat) : ValidUtf8 (widePage n) := by
  refine (validUtf8_ascii (by decide +kernel)).append ((validUtf8_ascii ?_).append ?_)
  · intro c hc
    rw [(List.mem_replicate.mp hc).2]
    decide
  · exact ⟨[Char.ofNat 0x1F600], by decide⟩

/-- With 78 letters the second line has 82 bytes. -/
theorem not_lines_le_wide :
    ¬ ∀ input, ValidUtf8 input → ∀ l ∈ H2t.Stream.lines input, l.length ≤ maxLine := by
  intro h
  have hline : ∃ l ∈ H2t.Stream.lines (widePage 78), ¬ l.length ≤ maxLine := by decide +kernel
  obtain ⟨l, hl, hlong⟩ := hline
  exact hlong (h (widePage 78) (validUtf8_widePage 78) l hl)

/-- With 76 letters the second line has just `MAX_LINE` bytes. -/
theorem lines_le_narrow : (∃ l ∈ H2t.Stream.lines (widePage 76), l.length = maxLine) ∧
    Fits (H2t.Stream.commands (widePage 76) ++ [.flush]) .empty :=
  ⟨by decide +kernel, ((lines_le_iff (widePage 76)).2.1 (validUtf8_widePage 76)).mp
    (by decide +kernel)⟩

end Converters
