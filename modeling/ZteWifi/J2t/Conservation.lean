import ZteWifi.J2t.Calls
import ZteWifi.Text.Width

/-!
# The converter loses nothing

`j2t.c` appends a byte without a test for room only where it belongs to a character, so its line is
never longer than 83 bytes, and everything it appends is printed.
-/

open Ascii LineBuf

namespace J2t

namespace Trace

theorem lowSurrogate_cmds {v : Nat} (hv : isHighSurrogate v) (s : List UInt8) :
    (lowSurrogate v s).1 = [] ∨ ∃ cp, cp.isValidChar ∧ (lowSurrogate v s).1 = [.utf8 cp] := by
  unfold lowSurrogate
  split
  · split
    · exact .inl rfl
    · split
      · next lo _ _ hlo =>
        exact .inr ⟨surrogatePair v lo, surrogatePair_valid hv hlo, rfl⟩
      · exact .inl rfl
  · exact .inl rfl

/-- A unicode escape appends a character or nothing. -/
theorem unicodeEscape_cmds (s : List UInt8) :
    (unicodeEscape s).1 = [] ∨ ∃ cp, cp.isValidChar ∧ (unicodeEscape s).1 = [.utf8 cp] := by
  unfold unicodeEscape
  split
  · exact .inl rfl
  · next v s' hdigits =>
    have hlt := hexDigits_lt hdigits
    split
    · next hhigh => exact lowSurrogate_cmds hhigh s'
    split
    · exact .inl rfl
    · next hhigh hlow =>
      refine .inr ⟨v, ?_, rfl⟩
      unfold Nat.isValidChar
      omega

theorem orderly_unicodeEscape (s : List UInt8) : Orderly (unicodeEscape s).1 := by
  rcases unicodeEscape_cmds s with h | ⟨cp, -, h⟩ <;> rw [h]
  · exact .nil
  · exact .single trivial trivial rfl

theorem orderly_escape (c : UInt8) : Orderly (escapeCmds c) := by
  unfold escapeCmds
  split
  · exact orderly_bytes [0x08]
  split
  · exact orderly_bytes [0x0C]
  split
  · exact .single trivial trivial rfl
  split
  · exact .nil
  · exact orderly_bytes [c]

/-- A multi-byte character, of which the input may have only a part. -/
theorem orderly_charCmds {c : UInt8} (hc : ¬ c < 0x80) {cont : List UInt8}
    (hcont : cont.length ≤ utf8CharLen c - 1) : Orderly (charCmds c cont) :=
  orderly_char ⟨utf8CharLen_pos c, utf8CharLen_le c, fun heq =>
    absurd heq (ne_space_of_not_ascii hc)⟩ hcont

theorem orderly_stringBody (s : List UInt8) : Orderly (stringBody s).1 := by
  have hspace : Orderly [.space] := .single trivial trivial rfl
  fun_induction stringBody s with
  | case1 => exact .nil
  | case2 => exact .nil
  | case3 => exact .nil
  | case4 s => exact orderly_unicodeEscape s
  | case5 s s' _ _ ih => exact (orderly_unicodeEscape s).append ih
  | case6 e s _ _ ih => exact (orderly_escape e).append ih
  | case7 c s _ _ _ ih => exact hspace.append ih
  | case8 c s _ _ _ _ ih => exact (orderly_bytes [c]).append ih
  | case9 c s _ _ _ hc hlen => exact orderly_charCmds hc (Nat.le_of_lt hlen)
  | case10 c s _ _ _ hc _ _ ih =>
    exact (orderly_charCmds hc (List.length_take_le _ _)).append ih

theorem Emitted.orderly {s : List UInt8} {cs : List Cmd} (h : Emitted s cs) : Orderly cs := by
  cases h with
  | string => exact orderly_stringBody s.tail
  | indent depth => exact .single trivial trivial rfl
  | colon => exact .single trivial ⟨by decide, .inl (by decide +kernel)⟩ rfl
  | dash => exact .single trivial ⟨by decide, .inl (by decide +kernel)⟩ rfl
  | flush => exact .single trivial trivial rfl
  | @literal l hl =>
    have hplain : (Cmd.str l).Plain := by
      simp only [List.mem_cons, List.not_mem_nil, or_false] at hl
      rcases hl with rfl | rfl | rfl <;> exact ⟨by decide, .inl (by decide +kernel)⟩
    exact .single trivial hplain rfl
  | @number t ht => exact orderly_bytes t

theorem orderly_calls (input : List UInt8) : Orderly (calls input) := by
  obtain ⟨ps, hps, hall⟩ := calls_emitted input
  rw [hps]
  apply Orderly.flatten
  intro p hp
  obtain ⟨s, -, hemitted⟩ := hall p hp
  exact hemitted.orderly

end Trace

/-- After each of its calls the converter has at most 83 bytes in its line, and has printed or keeps
every byte that was appended. -/
theorem conserves (input : List UInt8) :
    (∃ e, Stream.main input = some e ∧
      e.stdout = (execAll (Trace.calls input) .empty).stdout ∧ e.truncated = false) ∧
    ∀ cs, cs <+: Trace.calls input →
      (execAll cs .empty).line.length ≤ maxLine + 3 ∧ (execAll cs .empty).truncated = false ∧
        visible (execAll cs .empty).content = visible (cs.flatMap Cmd.appended) := by
  have hall : ∀ cs, cs <+: Trace.calls input → Holds (pendingAll 0 cs) (execAll cs .empty) := by
    intro cs hcs
    have hcalls := (Trace.orderly_calls input).paced
    have hpaced := hcalls.of_prefix hcs
    exact Holds.empty.execAll hpaced.proper (hpaced.roomy .empty)
  refine ⟨?_, fun cs hcs => ?_⟩
  · obtain ⟨e, he, hout, htrunc⟩ := Trace.main_calls input
    exact ⟨e, he, hout, htrunc.trans (hall _ (List.prefix_refl _)).whole⟩
  · have hholds := hall cs hcs
    exact ⟨Nat.le_trans (Nat.le_add_right _ _) hholds.length_le, hholds.whole,
      visible_execAll hholds.whole⟩

end J2t
