import ZteWifi.J2t.Conservation
import ZteWifi.J2t.Layout
import ZteWifi.Text.Blank

/-!
# Words behind the indentation

A key or a value whose first word finds no room behind the indentation makes `j2t.c` write an empty
line before it.
-/

open Ascii LineBuf

namespace J2t

namespace Trace

/-! ## 1. The texts of a run -/

theorem isStr_stringBody (s : List UInt8) : ∀ c ∈ (stringBody s).1, c.isStr = false := by
  have hescape (s : List UInt8) : ∀ c ∈ (unicodeEscape s).1, c.isStr = false := by
    rcases unicodeEscape_cmds s with h | ⟨cp, -, h⟩ <;> rw [h]
    · exact List.forall_mem_nil _
    · exact List.forall_mem_singleton.mpr rfl
  have hsimple (e : UInt8) : ∀ c ∈ escapeCmds e, c.isStr = false := by
    unfold escapeCmds
    split_ifs <;> simp [Cmd.isStr]
  have hchar (x : UInt8) (cont : List UInt8) : ∀ c ∈ charCmds x cont, c.isStr = false := by
    refine List.forall_mem_cons.mpr ⟨rfl, fun c hc => ?_⟩
    obtain ⟨y, -, rfl⟩ := List.mem_map.mp hc
    rfl
  fun_induction stringBody s with
  | case1 => exact List.forall_mem_nil _
  | case2 => exact List.forall_mem_nil _
  | case3 => exact List.forall_mem_nil _
  | case4 s => exact hescape s
  | case5 s s' _ _ ih => exact List.forall_mem_append.mpr ⟨hescape s, ih⟩
  | case6 e s _ _ ih => exact List.forall_mem_append.mpr ⟨hsimple e, ih⟩
  | case7 c s _ _ _ ih => exact List.forall_mem_cons.mpr ⟨rfl, ih⟩
  | case8 c s _ _ _ _ ih => exact List.forall_mem_cons.mpr ⟨rfl, ih⟩
  | case9 c s => exact hchar c s
  | case10 c s _ _ _ _ _ _ ih => exact List.forall_mem_append.mpr ⟨hchar c _, ih⟩

theorem Emitted.asciiTexts {s : List UInt8} {cs : List Cmd} (h : Emitted s cs) :
    AsciiTexts cs := by
  have htext {l : List UInt8} (hl : ∀ c ∈ l, c < 0x80) : AsciiTexts [.str l] := by
    intro s hs
    cases List.mem_singleton.mp hs
    exact hl
  have hnone {cs : List Cmd} (hcs : ∀ c ∈ cs, c.isStr = false) : AsciiTexts cs :=
    fun s hs => absurd (hcs _ hs) Bool.noConfusion
  cases h with
  | indent depth => exact hnone (List.forall_mem_singleton.mpr rfl)
  | colon => exact htext (by decide +kernel)
  | dash => exact htext (by decide +kernel)
  | flush => exact hnone (List.forall_mem_singleton.mpr rfl)
  | string => exact hnone (isStr_stringBody s.tail)
  | @literal l hl =>
    apply htext
    simp only [List.mem_cons, List.not_mem_nil, or_false] at hl
    rcases hl with rfl | rfl | rfl <;> decide +kernel
  | @number t ht =>
    refine hnone fun c hc => ?_
    obtain ⟨x, -, rfl⟩ := List.mem_map.mp hc
    rfl

theorem asciiTexts_calls (input : List UInt8) : AsciiTexts (calls input) := by
  obtain ⟨ps, hps, hall⟩ := calls_emitted input
  intro s hs
  rw [hps] at hs
  obtain ⟨p, hp, hsp⟩ := List.mem_flatten.mp hs
  obtain ⟨t, -, hemitted⟩ := hall p hp
  exact hemitted.asciiTexts s hsp

/-- The calls of a run, with the texts byte by byte. -/
def byteCalls (input : List UInt8) : List Cmd := (calls input).flatMap Cmd.split

end Trace

/-! ## 2. Empty lines -/

/-- On each line something can be seen exactly when every word that comes to a line of spaces only
finds room behind them. -/
theorem lines_visible_iff (input : List UInt8) :
    (∃ e, Stream.main input = some e ∧ e.stdout = printed (Trace.lines input)) ∧
    ((∀ c ∈ Trace.calls input, nl ∉ c.appended) → ∀ l ∈ Trace.lines input, nl ∉ l) ∧
    ((∀ l ∈ Trace.lines input, ∃ c ∈ l, c ≠ space) ↔
      FirstWordsFit (Trace.byteCalls input) .empty) := by
  refine ⟨Trace.main_stdout input, fun hnl l hl hmem => ?_, ?_⟩
  · have hpaced := (Trace.orderly_calls input).paced
    have hwhole := (Holds.empty.execAll hpaced.proper (hpaced.roomy .empty)).whole
    obtain ⟨-, hsolid⟩ := adds_execAll (Trace.calls input) .empty hwhole
    have hin : nl ∈ solid ((Trace.lines input).flatten ++
        (execAll (Trace.calls input) .empty).line) := by
      refine List.mem_filter.mpr ⟨List.mem_append_left _ ?_, by decide⟩
      exact List.mem_flatten.mpr ⟨l, hl, hmem⟩
    rw [Trace.lines, hsolid] at hin
    obtain ⟨c, hc, hnlc⟩ := List.mem_flatMap.mp (List.mem_filter.mp hin).1
    exact hnl c hc hnlc
  · have hpaced := (Trace.orderly_calls input).paced.split
    rw [Trace.lines, ← linesAll_split (Trace.asciiTexts_calls input)]
    exact visible_iff hpaced isStr_of_mem_split

theorem letterA_plain : (0x61 : UInt8) < 0x80 ∧ (0x61 : UInt8) ≠ quote ∧
    (0x61 : UInt8) ≠ backslash := by
  decide

theorem one_start : isdigit 0x31 = true ∨ (0x31 : UInt8) = minus := .inl rfl

/-- The letter `a`. -/
def letterA : Item := .ascii 0x61 letterA_plain

/-- `{"a":{"…":1}}` with a key of `n` letters. -/
def nestedKey (n : Nat) : Text :=
  ⟨.none, .object (.lastMember ⟨.none, [letterA], .none, .none⟩
    (.object (.lastMember ⟨.none, List.replicate n letterA, .none, .none⟩
      (.number ⟨0x31, [], one_start, List.all_nil⟩) .none)) .none), .none⟩

theorem nestedKey_accepted (n : Nat) : ∃ e, Stream.main (nestedKey n).bytes = some e ∧
    e.status = 0 := by
  obtain ⟨e, he, haccept, -⟩ := Stream.main_text (nestedKey n) (Nat.le_of_ble_eq_true rfl)
  exact ⟨e, he, haccept⟩

theorem nestedKey_calls (n : Nat) : Trace.calls (nestedKey n).bytes =
    (nestedKey n).value.cmds false 0 ++ [.flush] := by
  rw [Trace.calls, Trace.run_text (nestedKey n) (Nat.le_of_ble_eq_true rfl)]
  rfl

/-- A key of 79 letters stands behind an empty line. -/
theorem not_lines_visible_nested : ¬ ∀ input e, Stream.main input = some e → e.status = 0 →
    (∀ c ∈ Trace.calls input, nl ∉ c.appended) →
      ∀ l ∈ Trace.lines input, ∃ c ∈ l, c ≠ space := by
  intro h
  obtain ⟨e, he, haccept⟩ := nestedKey_accepted 79
  have hnl : ∀ c ∈ Trace.calls (nestedKey 79).bytes, nl ∉ c.appended := by
    rw [nestedKey_calls]
    decide +kernel
  have hblank : [] ∈ Trace.lines (nestedKey 79).bytes := by
    rw [Trace.lines, nestedKey_calls]
    decide +kernel
  obtain ⟨c, hc, -⟩ := h _ e he haccept hnl [] hblank
  cases hc

end J2t
