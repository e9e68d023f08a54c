import ZteWifi.H2t.Boundaries
import ZteWifi.H2t.Whole
import ZteWifi.J2t.StreamRefines

/-!
# Characters that are cut off

`append_text_byte` and `emit_json_string` read as many bytes as the first byte of a character
announces, whatever they are.  Where another byte stands among them, it is lost as markup or as a
delimiter; the whole-buffer `h2t` reads one byte at a time and loses none.
-/

open Ascii LineBuf Text

namespace Text

/-! ## 1. Bytes behind a first byte -/

/-- Of the character that `c` announces some bytes are missing, and another byte follows. -/
def CutOff (c : UInt8) (s : List UInt8) : Prop :=
  ∃ t a r, s = t ++ a :: r ∧ (∀ d ∈ t, isContinuation d) ∧ ¬ isContinuation a ∧
    t.length + 1 < utf8CharLen c

/-- The bytes of `s` that are read when `r` is left of it. -/
def readBytes (s r : List UInt8) : List UInt8 := s.take (s.length - r.length)

theorem readBytes_drop (s : List UInt8) (n : Nat) : readBytes s (s.drop n) = s.take n := by
  rw [readBytes, List.length_drop]
  by_cases hlen : n ≤ s.length
  · rw [Nat.sub_sub_self hlen]
  · rw [List.take_of_length_le (by omega), List.take_of_length_le (by omega)]

theorem not_cutOff_iff {c : UInt8} {s : List UInt8} :
    ¬ CutOff c s ↔ ∀ d ∈ s.take (utf8CharLen c - 1), isContinuation d := by
  constructor
  · intro hcut
    have hsplit := List.takeWhile_append_dropWhile (p := isContinuation) (l := s)
    have hrun : ∀ d ∈ s.takeWhile isContinuation, isContinuation d :=
      fun d hd => List.mem_takeWhile_imp hd
    cases hrest : s.dropWhile isContinuation with
    | nil =>
      rw [hrest, List.append_nil] at hsplit
      intro d hd
      exact hrun d (hsplit.symm ▸ List.mem_of_mem_take hd)
    | cons a r =>
      rw [hrest] at hsplit
      have ha : ¬ isContinuation a := by
        have hhead := List.head?_dropWhile_not isContinuation s
        rw [hrest] at hhead
        exact Bool.not_eq_true _ ▸ hhead
      -- otherwise `a` stands among the bytes that are missing
      have hlen : utf8CharLen c - 1 ≤ (s.takeWhile isContinuation).length := by
        by_contra hlt
        exact hcut ⟨_, a, r, hsplit.symm, hrun, ha, by omega⟩
      intro d hd
      rw [← hsplit, List.take_append_of_le_length hlen] at hd
      exact hrun d (List.mem_of_mem_take hd)
  · rintro hall ⟨t, a, r, rfl, -, ha, hlen⟩
    refine ha (hall a ?_)
    rw [List.take_append, List.mem_append]
    right
    obtain ⟨k, hk⟩ := Nat.exists_eq_add_of_lt (show t.length < utf8CharLen c - 1 by omega)
    rw [hk, Nat.add_assoc, Nat.add_sub_cancel_left]
    exact List.mem_cons_self

theorem lead_ge : ∀ c : UInt8, 2 ≤ utf8CharLen c →
    ¬ c < 0x80 ∧ ¬ c < 0x20 ∧ c ≠ lt ∧ c ≠ amp ∧ isspace c = false ∧ c ≠ quote ∧ c ≠ backslash := by
  decide +kernel

/-- A turn that has read the first byte `c` of a character before `s` and leaves `rest` unread reads
continuation bytes only, and an ASCII byte behind an incomplete character is met as if it stood
alone: `Follows t r` says that the bytes `t` are appended and then `r` is read. -/
structure Separate (c : UInt8) (s rest : List UInt8)
    (Follows : List UInt8 → List UInt8 → Prop) : Prop where
  read : ∀ d ∈ readBytes s rest, isContinuation d
  behind : ∀ t a r, s = t ++ a :: r → (∀ d ∈ t, isContinuation d) → t.length + 1 < utf8CharLen c →
    a < 0x80 → Follows t (a :: r)

/-- A turn that reads as many bytes as `c` announces keeps to that unless the character is cut off. -/
theorem separate_iff {c : UInt8} {s rest : List UInt8} {Follows : List UInt8 → List UInt8 → Prop}
    (hrest : rest = s.drop (utf8CharLen c - 1)) : Separate c s rest Follows ↔ ¬ CutOff c s := by
  subst hrest
  constructor
  · intro h
    have hread := h.read
    rw [readBytes_drop] at hread
    exact not_cutOff_iff.mpr hread
  · intro hcut
    refine ⟨?_, fun t a r hs ht hlen ha => ?_⟩
    · rw [readBytes_drop]
      exact not_cutOff_iff.mp hcut
    · exact absurd ⟨t, a, r, hs, ht, not_isContinuation_ascii a ha, hlen⟩ hcut

end Text

/-! ## 2. The loop of `h2t.c` -/

namespace H2t.Stream

theorem mainStep_lead {c : UInt8} (hc : 2 ≤ utf8CharLen c) (s : List UInt8) :
    (mainStep c s).2.getD [] = s.drop (utf8CharLen c - 1) := by
  obtain ⟨hascii, hctl, hlt, hamp, hspace, -⟩ := lead_ge c hc
  -- a first byte is in no other branch
  rw [mainStep, if_neg hlt, if_neg hamp, hspace, if_neg Bool.false_ne_true, if_neg hctl,
    appendTextByte, if_neg hascii, if_neg (by omega)]
  dsimp only
  split
  · rfl
  · rw [List.drop_of_length_le (by omega)]
    rfl

/-- What the loop does at the bytes `s` behind the first byte `c` of a character. -/
abbrev SeparateTurn (c : UInt8) (s : List UInt8) : Prop :=
  Separate c s ((mainStep c s).2.getD []) fun t r =>
    commands (c :: s) = .lead (utf8CharLen c) c :: t.map .raw ++ commands r

end H2t.Stream

/-! ## 3. The loop of `emit_json_string` -/

namespace J2t.Trace

/-- One turn of the loop, which has read `c`. -/
def stringStep (c : UInt8) (s : List UInt8) : Scanned :=
  if c = quote then ([], none)
  else if c = backslash then
    match s with
    | [] => ([], none)
    | e :: s => if e = 0x75 then unicodeEscape s else (escapeCmds e, some s)
  else if c < 0x20 then ([.space], some s)
  else if c < 0x80 then ([.byte c], some s)
  else
    (charCmds c (s.take (utf8CharLen c - 1)),
      if utf8CharLen c - 1 ≤ s.length then some (s.drop (utf8CharLen c - 1)) else none)

/-- What is unread before each turn of the loop that starts with `r` unread. -/
inductive InString (r : List UInt8) : List UInt8 → Prop
  | start : InString r r
  | turn {c : UInt8} {s s' : List UInt8} (h : InString r (c :: s))
      (hs : (stringStep c s).2 = some s') : InString r s'

theorem stringStep_lead {c : UInt8} (hc : 2 ≤ utf8CharLen c) (s : List UInt8) :
    (stringStep c s).2.getD [] = s.drop (utf8CharLen c - 1) := by
  obtain ⟨hascii, hctl, -, -, -, hquote, hslash⟩ := lead_ge c hc
  rw [stringStep.eq_def, if_neg hquote, if_neg hslash, if_neg hctl, if_neg hascii]
  dsimp only
  split
  · rfl
  · rw [List.drop_of_length_le (by omega)]
    rfl

/-- The same of the loop over a string. -/
abbrev SeparateTurn (c : UInt8) (s : List UInt8) : Prop :=
  Separate c s ((stringStep c s).2.getD []) fun t r =>
    stringBody (c :: s) = (charCmds c t ++ (stringBody r).1, (stringBody r).2)

end J2t.Trace

namespace Converters

/-! ## 4. All versions -/

/-- No turn reads bytes that do not belong to the character it has begun, exactly if none meets one
that is cut off by another byte.  `input` is a page and `r` what stands behind the opening quote of a
string; the whole-buffer `h2t` reads one byte of text at each turn. -/
theorem separate_turns_iff (input r : List UInt8) :
    ((∀ c s, H2t.Stream.Unread input (c :: s) → 2 ≤ utf8CharLen c → H2t.Stream.SeparateTurn c s) ↔
      ∀ c s, H2t.Stream.Unread input (c :: s) → ¬ CutOff c s) ∧
    (∀ pos c, 0x80 ≤ c → H2t.Whole.mainStep input c pos = ([H2t.Whole.textCmd c], pos + 1)) ∧
    (∀ st : J2t.Stream.St, st.rd.content = quote :: r → st.rd.pb.length ≤ 6 →
      J2t.Stream.Computes J2t.Stream.emitJsonString st (J2t.Trace.stringBody r)) ∧
    ((∀ c s, J2t.Trace.InString r (c :: s) → 2 ≤ utf8CharLen c → J2t.Trace.SeparateTurn c s) ↔
      ∀ c s, J2t.Trace.InString r (c :: s) → ¬ CutOff c s) := by
  -- only a character of more than one byte is cut off
  have hcut {c : UInt8} {s : List UInt8} (h : CutOff c s) : 2 ≤ utf8CharLen c := by
    obtain ⟨t, a, r, -, -, -, hlen⟩ := h
    omega
  refine ⟨⟨fun h c s hs hbad => ?_, fun h c s hs hc => ?_⟩, fun pos c hc => ?_,
    fun st => J2t.Stream.emitJsonString_computes, ⟨fun h c s hs hbad => ?_, fun h c s hs hc => ?_⟩⟩
  · exact (separate_iff (H2t.Stream.mainStep_lead (hcut hbad) s)).mp (h c s hs (hcut hbad)) hbad
  · exact (separate_iff (H2t.Stream.mainStep_lead hc s)).mpr (h c s hs)
  · have hall : ∀ c : UInt8, 0x80 ≤ c → c ≠ lt ∧ c ≠ amp ∧ isspace c = false ∧ ¬ c < 0x20 := by
      decide +kernel
    obtain ⟨hlt, hamp, hspace, hctl⟩ := hall c hc
    rw [H2t.Whole.mainStep, if_neg hlt, if_neg hamp, hspace, if_neg Bool.false_ne_true, if_neg hctl]
  · exact (separate_iff (J2t.Trace.stringStep_lead (hcut hbad) s)).mp (h c s hs (hcut hbad)) hbad
  · exact (separate_iff (J2t.Trace.stringStep_lead hc s)).mpr (h c s hs)

/-- The first byte of a character of two, and a tag. -/
def tornPage : List UInt8 := 0xC3 :: bytes "<p>"

/-- The tag is printed as text. -/
example : (H2t.Stream.main tornPage).stdout = tornPage ++ [nl] := by decide +kernel

theorem not_separate_turns_torn : ¬ ∀ input c s, H2t.Stream.Unread input (c :: s) →
    2 ≤ utf8CharLen c → H2t.Stream.SeparateTurn c s := by
  intro h
  have hturn := h tornPage 0xC3 (bytes "<p>") .start (by decide)
  refine (separate_iff (H2t.Stream.mainStep_lead (by decide) _)).mp hturn ?_
  exact ⟨[], lt, bytes "p>", rfl, List.forall_mem_nil _, by decide, by decide⟩

end Converters
