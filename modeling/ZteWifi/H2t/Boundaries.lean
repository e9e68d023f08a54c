import ZteWifi.H2t.Overflow
import ZteWifi.Text.Boundary

/-!
# Characters stay whole

Whatever `h2t.c` drops of a valid input ends with an ASCII byte or a whole character, so each turn
of its loop starts at a character, and what it appends are characters.
-/

open Ascii LineBuf Text

namespace H2t

namespace Stream

/-! ## 1. What is appended -/

theorem keepsClean_code (cp : Nat) : KeepsClean (emitCodePoint cp) := by
  unfold emitCodePoint
  split
  · exact .nil
  next hcp =>
  split
  · exact keepsClean_space
  · apply keepsClean_utf8
    unfold Nat.isValidChar
    omega

theorem keepsClean_known (name : List UInt8) : KeepsClean (emitKnownEntity name) := by
  unfold emitKnownEntity
  cases hlookup : knownEntities.lookup name with
  | none => exact .nil
  | some c =>
    show KeepsClean [c]
    rcases knownEntities_cases (mem_of_lookup hlookup) with heq | ⟨s, heq, -, hs⟩
    · rw [show c = .space from heq]
      exact keepsClean_space
    · rw [show c = .str s from heq]
      rcases hs with hascii | ⟨ch, rfl⟩
      · exact keepsClean_ascii hascii
      · exact keepsClean_encode ch

theorem Decoded.keepsClean {cs : List Cmd} (h : Decoded cs) : KeepsClean cs := by
  cases h with
  | @text u hu =>
    have hascii : ∀ c ∈ amp :: u, c < 0x80 :=
      List.forall_mem_cons.mpr ⟨by decide, fun c hc => isTextByte_ascii c (hu c hc)⟩
    exact keepsClean_bytes hascii
  | code cp => exact keepsClean_code cp
  | known name => exact keepsClean_known name

/-- At the first byte of a character `append_text_byte` reads the whole of it. -/
theorem appendTextByte_char {c : UInt8} {s : List UInt8} (h : ValidUtf8 (c :: s)) :
    ∃ ch t r, String.utf8EncodeChar ch = c :: t ∧ utf8CharLen c = t.length + 1 ∧
      (∀ d ∈ t, isContinuation d) ∧ ValidUtf8 r ∧ appendTextByte c s =
        (if c < 0x80 then [.byte c] else .lead (utf8CharLen c) c :: t.map .raw, some r) := by
  obtain ⟨ch, t, r, hencode, rfl, hr⟩ := h.uncons
  obtain ⟨d, u, hencode', hlen, hcont, hnil⟩ := encode_cons ch
  obtain ⟨rfl, rfl⟩ := List.cons.inj (hencode'.symm.trans hencode)
  refine ⟨ch, u, r, hencode', hlen, hcont, hr, ?_⟩
  rw [appendTextByte]
  split
  · next hc =>
    rw [hnil.mpr hc]
    rfl
  · next hc =>
    have hone : utf8CharLen d ≠ 1 := by
      intro hone
      refine hc (hnil.mp (List.eq_nil_of_length_eq_zero ?_))
      omega
    have hrest : utf8CharLen d - 1 = u.length := by omega
    rw [if_neg hone, hrest, List.take_left, List.drop_left, if_pos]
    rw [List.length_append]
    exact Nat.le_add_right _ _

theorem keepsClean_textByte {c : UInt8} {s : List UInt8} (h : ValidUtf8 (c :: s)) :
    KeepsClean (appendTextByte c s).1 := by
  obtain ⟨ch, t, r, hencode, hlen, -, -, heq⟩ := appendTextByte_char h
  rw [heq]
  split
  · next hc => exact keepsClean_byte hc
  · exact keepsClean_char hencode hlen

/-! ## 2. What is left unread -/

/-- Each turn of the loop leaves valid text unread. -/
theorem mainStep_valid {c : UInt8} {s : List UInt8} (h : ValidUtf8 (c :: s)) :
    ValidUtf8 ((mainStep c s).2.getD []) := by
  unfold mainStep
  split
  · -- a tag, a comment or a skipped element ends behind a `>`
    next hlt =>
    have hs : ValidUtf8 s := h.tail (by rw [hlt]; decide)
    cases hrest : (handleTag s).2 with
    | none => exact .nil
    | some r => exact hs.behind (handleTag_suffix hrest) (by decide)
  split
  · next hamp =>
    have hs : ValidUtf8 s := h.tail (by rw [hamp]; decide)
    obtain ⟨-, u, hu, hascii⟩ := decodeEntity_reads s
    rw [hu] at hs
    exact hs.drop_ascii hascii
  have hspaces : ∀ c : UInt8, isspace c → c < 0x80 := by decide +kernel
  split
  · next hspace =>
    have hs := h.tail (hspaces c hspace)
    rw [← List.takeWhile_append_dropWhile (p := isspace) (l := s)] at hs
    exact hs.drop_ascii fun d hd => hspaces d (List.mem_takeWhile_imp hd)
  split
  · next hcontrol => exact h.tail (UInt8.lt_trans hcontrol (by decide))
  · obtain ⟨ch, t, r, -, -, -, hr, heq⟩ := appendTextByte_char h
    rw [heq]
    exact hr

/-- What is unread before each turn of the loop, and at the end of it. -/
inductive Unread (input : List UInt8) : List UInt8 → Prop
  | start : Unread input input
  | turn {c : UInt8} {s : List UInt8} (h : Unread input (c :: s)) :
      Unread input ((mainStep c s).2.getD [])

theorem Unread.valid {input r : List UInt8} (h : Unread input r) (hinput : ValidUtf8 input) :
    ValidUtf8 r := by
  induction h with
  | start => exact hinput
  | turn _ ih => exact mainStep_valid ih

/-! ## 3. A whole run -/

theorem keepsClean_mainStep {c : UInt8} {s : List UInt8} (h : ValidUtf8 (c :: s)) :
    KeepsClean (mainStep c s).1 := by
  unfold mainStep
  split
  · rcases handleTag_cmds s with htag | htag <;> rw [htag]
    · exact .nil
    · exact keepsClean_flush
  split
  · exact (decodeEntity_reads s).1.keepsClean
  split
  · exact keepsClean_space
  split
  · exact .nil
  · exact keepsClean_textByte h

theorem keepsClean_commands {input : List UInt8} (h : ValidUtf8 input) :
    KeepsClean (commands input) := by
  induction input using turns_induction with
  | nil => exact .nil
  | turn c s ih =>
    rw [commands_cons]
    exact (keepsClean_mainStep h).append (ih (mainStep_valid h))

end Stream

/-- Of a valid page every line that is written is valid by itself, and no turn of the loop starts
within a character. -/
theorem lines_valid (input : List UInt8) (h : ValidUtf8 input) :
    (Stream.main input).stdout = printed (Stream.lines input) ∧
      (∀ l ∈ Stream.lines input, ValidUtf8 l) ∧
      ∀ r, Stream.Unread input r → ValidUtf8 r := by
  refine ⟨Stream.main_stdout input, ?_, fun r hr => hr.valid h⟩
  exact (((Stream.keepsClean_commands h).append keepsClean_flush) .empty .empty).2

/-- A character of two bytes, and a paragraph with an entity of three and a surrogate. -/
def accentedPage : List UInt8 := [0xC3, 0xA9] ++ bytes "<p>&#x20AC;&#xD800;</p>"

theorem lines_valid_page : (Stream.main accentedPage).stdout = printed (Stream.lines accentedPage) ∧
    (∀ l ∈ Stream.lines accentedPage, ValidUtf8 l) ∧
    ∀ r, Stream.Unread accentedPage r → ValidUtf8 r := by
  have hvalid : ValidUtf8 accentedPage := by
    refine ValidUtf8.append ?_ (validUtf8_ascii (by decide +kernel))
    exact ⟨[Char.ofNat 0xE9], by decide⟩
  exact lines_valid accentedPage hvalid

end H2t
