import ZteWifi.H2t.Entities
import ZteWifi.Text.Room

/-!
# Bytes that belong to no character

`append_text_byte` puts such a byte on the line without a test for room.  A line of them grows until
the buffer is full, and what comes then is lost; where each of them finds room, nothing is.
-/

open Ascii LineBuf

namespace H2t

namespace Stream

theorem mem_of_lookup {name : List UInt8} {c : Cmd} (h : knownEntities.lookup name = some c) :
    (name, c) ∈ knownEntities := by
  obtain ⟨l, l', heq, -⟩ := List.lookup_eq_some_iff.mp h
  rw [heq]
  exact List.mem_append_right l List.mem_cons_self

/-- A known entity is a space, an ASCII text or one other character. -/
theorem knownEntities_cases {p : List UInt8 × Cmd} (h : p ∈ knownEntities) : p.2 = .space ∨
    ∃ s, p.2 = .str s ∧ s ≠ [] ∧
      ((∀ c ∈ s, c < 0x80) ∨ ∃ c : Char, s = String.utf8EncodeChar c) := by
  simp only [knownEntities, List.mem_cons, List.not_mem_nil, or_false] at h
  rcases h with rfl | rfl | rfl | rfl | rfl | rfl | rfl | rfl | rfl | rfl | rfl | rfl | rfl | rfl |
    rfl | rfl | rfl | rfl
  iterate 4 exact .inl rfl
  iterate 8 exact .inr ⟨_, rfl, by decide, .inl (by decide +kernel)⟩
  · exact .inr ⟨_, rfl, by decide, .inr ⟨Char.ofNat 0xB7, by decide⟩⟩
  · exact .inr ⟨_, rfl, by decide, .inr ⟨Char.ofNat 0xD7, by decide⟩⟩
  · exact .inr ⟨_, rfl, by decide, .inr ⟨Char.ofNat 0xB0, by decide⟩⟩
  · exact .inr ⟨_, rfl, by decide, .inr ⟨Char.ofNat 0xB1, by decide⟩⟩
  · exact .inr ⟨_, rfl, by decide, .inr ⟨Char.ofNat 0xA9, by decide⟩⟩
  · exact .inr ⟨_, rfl, by decide, .inr ⟨Char.ofNat 0xAE, by decide⟩⟩

theorem Decoded.proper {cs : List Cmd} (h : Decoded cs) : ∀ c ∈ cs, c.Proper := by
  cases h with
  | @text u _ =>
    refine List.forall_mem_cons.mpr ⟨trivial, fun c hc => ?_⟩
    obtain ⟨d, -, rfl⟩ := List.mem_map.mp hc
    trivial
  | code cp =>
    unfold emitCodePoint
    split
    · exact List.forall_mem_nil _
    split <;> exact List.forall_mem_singleton.mpr trivial
  | known name =>
    intro c hc
    have hmem := mem_of_lookup (Option.mem_toList.mp hc)
    rcases knownEntities_cases hmem with heq | ⟨s, heq, -⟩
    · rw [show c = .space from heq]
      trivial
    · rw [show c = .str s from heq]
      trivial

theorem appendTextByte_proper (c : UInt8) (s : List UInt8) :
    ∀ x ∈ (appendTextByte c s).1, x.Proper := by
  unfold appendTextByte
  dsimp only
  split
  · exact List.forall_mem_singleton.mpr trivial
  next hc =>
  split
  · exact List.forall_mem_singleton.mpr trivial
  · refine List.forall_mem_cons.mpr ⟨⟨utf8CharLen_pos c, utf8CharLen_le c, fun heq =>
      absurd heq (ne_space_of_not_ascii hc)⟩, fun x hx => ?_⟩
    obtain ⟨d, -, rfl⟩ := List.mem_map.mp hx
    trivial

theorem handleTag_cmds (s : List UInt8) : (handleTag s).1 = [] ∨ (handleTag s).1 = [.flush] := by
  unfold handleTag afterTag
  repeat' split
  all_goals simp

theorem mainStep_proper (c : UInt8) (s : List UInt8) : ∀ x ∈ (mainStep c s).1, x.Proper := by
  unfold mainStep
  split
  · rcases handleTag_cmds s with h | h <;> rw [h]
    · exact List.forall_mem_nil _
    · exact List.forall_mem_singleton.mpr trivial
  split
  · exact (decodeEntity_reads s).1.proper
  split
  · exact List.forall_mem_singleton.mpr trivial
  split
  · exact List.forall_mem_nil _
  · exact appendTextByte_proper c s

theorem commands_proper (input : List UInt8) : ∀ c ∈ commands input, c.Proper := by
  induction input using turns_induction with
  | nil => exact List.forall_mem_nil _
  | turn c s ih =>
    rw [commands_cons, List.forall_mem_append]
    exact ⟨mainStep_proper c s, ih⟩

/-- The lines that are written. -/
def lines (input : List UInt8) : List Line := linesAll (commands input ++ [.flush]) .empty

theorem main_stdout (input : List UInt8) : (main input).stdout = printed (lines input) := by
  have hstdout := execAll_stdout (commands input ++ [.flush]) .empty
  rw [execAll_append] at hstdout
  exact hstdout

/-- A run that loses nothing has written what it has appended, but for the spaces. -/
theorem solid_lines {input : List UInt8}
    (h : (execAll (commands input ++ [.flush]) .empty).truncated = false) :
    solid (lines input).flatten = solid ((commands input).flatMap Cmd.appended) := by
  obtain ⟨-, hsolid⟩ := adds_execAll (commands input ++ [.flush]) .empty h
  have hline : (execAll (commands input ++ [.flush]) .empty).line = [] := by
    rw [execAll_append]
    exact flushLine_line _
  rw [hline, List.append_nil, List.flatMap_append] at hsolid
  exact hsolid.trans (congrArg solid (List.append_nil _))

end Stream

/-- Wherever a byte from `0x80` on that is no part of a character is appended, the line has fewer
than `MAX_LINE` bytes. -/
def StrayFits (input : List UInt8) : Prop := Roomy 0 (Stream.commands input) .empty

instance (input : List UInt8) : Decidable (StrayFits input) :=
  inferInstanceAs (Decidable (Roomy _ _ _))

/-- Then the line never overflows, and all text stands in the lines that are written. -/
theorem prints_all (input : List UInt8) (h : StrayFits input) :
    (∀ cs, cs <+: Stream.commands input → (execAll cs .empty).line.length ≤ maxLine + 3 ∧
      (execAll cs .empty).truncated = false) ∧
    (Stream.main input).truncated = false ∧
    (Stream.main input).stdout = printed (Stream.lines input) ∧
    solid (Stream.lines input).flatten = solid ((Stream.commands input).flatMap Cmd.appended) := by
  have hholds : ∀ cs, cs <+: Stream.commands input →
      Holds (pendingAll 0 cs) (execAll cs .empty) := by
    intro cs hcs
    have hroomy := h.of_prefix hcs
    refine Holds.empty.execAll (fun c hc => ?_) hroomy
    exact Stream.commands_proper input c (hcs.subset hc)
  have hlast := (hholds _ (List.prefix_refl _)).flushLine
  have hwhole : (execAll (Stream.commands input ++ [.flush]) .empty).truncated = false := by
    rw [execAll_append]
    exact hlast.whole
  refine ⟨fun cs hcs => ?_, hlast.whole, Stream.main_stdout input, ?_⟩
  · have hcs := hholds cs hcs
    exact ⟨Nat.le_trans (Nat.le_add_right _ _) hcs.length_le, hcs.whole⟩
  · exact Stream.solid_lines hwhole

/-- `n` times the character B0 A1 of GBK. -/
def gbkPage (n : Nat) : List UInt8 := (List.replicate n [0xB0, 0xA1]).flatten

/-- With sixty-four characters the last byte is lost. -/
theorem not_prints_all_gbk :
    ¬ ∀ input, (Stream.main input).truncated = false ∧
      solid (Stream.lines input).flatten =
        solid ((Stream.commands input).flatMap Cmd.appended) := by
  intro h
  have htruncated : (Stream.main (gbkPage 64)).truncated = true := by decide +kernel
  rw [(h (gbkPage 64)).1] at htruncated
  cases htruncated

/-- With forty characters the line has `MAX_LINE` bytes in the end, and all of them are printed. -/
theorem prints_all_stray :
    (execAll (Stream.commands (gbkPage 40)) .empty).line.length = maxLine ∧
      StrayFits (gbkPage 40) ∧ (Stream.main (gbkPage 40)).truncated = false := by
  have hfits : StrayFits (gbkPage 40) := by decide +kernel
  exact ⟨by decide +kernel, hfits, (prints_all (gbkPage 40) hfits).2.1⟩

end H2t
