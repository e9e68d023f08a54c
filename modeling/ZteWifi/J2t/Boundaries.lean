import ZteWifi.J2t.Conservation
import ZteWifi.J2t.Layout
import ZteWifi.Text.Boundary

/-!
# Where characters are torn

`j2t.c` keeps the bytes of a character together on every path but one: behind a backslash the first
byte of a character is appended by itself, and its other bytes are taken for characters of their own.
-/

open Ascii LineBuf Text

namespace J2t

/-! ## 1. Strings -/

namespace Trace

theorem escapeCmds_of_not_ascii {c : UInt8} (hc : ¬ c < 0x80) : escapeCmds c = [.byte c] := by
  have hne : ∀ c : UInt8, ¬ c < 0x80 → c ≠ 0x62 ∧ c ≠ 0x66 ∧ ¬ (c = 0x6E ∨ c = 0x74) ∧ c ≠ 0x72 := by
    decide +kernel
  obtain ⟨hb, hf, hnt, hr⟩ := hne c hc
  rw [escapeCmds, if_neg hb, if_neg hf, if_neg hnt, if_neg hr]

theorem textIffWhole_byte {c : UInt8} (hc : c < 0x80) : TextIffWhole [.byte c] := by
  apply (keepsClean_byte hc).textIffWhole
  intro d hd
  cases List.mem_singleton.mp hd
  exact hc

theorem textIffWhole_escape {c : UInt8} (hc : c < 0x80) : TextIffWhole (escapeCmds c) := by
  unfold escapeCmds
  split
  · exact textIffWhole_byte (by decide)
  split
  · exact textIffWhole_byte (by decide)
  split
  · exact keepsClean_space.textIffWhole (by simp)
  split
  · exact .nil
  · exact textIffWhole_byte hc

end Trace

namespace Str

/-- Bytes that start no character are items of their own. -/
theorem cmds_continuations {t r : List UInt8} (ht : ∀ d ∈ t, isContinuation d) {s : Str}
    (h : s.flatMap Item.bytes = t ++ r) : ∃ s' : Str, s'.flatMap Item.bytes = r ∧
      s'.length ≤ s.length ∧ cmdsAfter none s = bytewise t ++ cmdsAfter none s' := by
  induction t generalizing s with
  | nil => exact ⟨s, h, Nat.le_refl _, rfl⟩
  | cons d t ih =>
    obtain ⟨hd, hrest⟩ := List.forall_mem_cons.mp ht
    have hascii : ¬ d < 0x80 := fun hlt => not_isContinuation_ascii d hlt hd
    have hone := utf8CharLen_continuation d hd
    cases s with
    | nil => cases h
    | cons i s =>
      rw [List.flatMap_cons] at h
      cases i with
      | escape c _ =>
        cases (List.cons.inj h).1
        exact absurd (by decide) hascii
      | unicode ds _ =>
        cases (List.cons.inj h).1
        exact absurd (by decide) hascii
      | ascii c hc =>
        cases (List.cons.inj h).1
        exact absurd hc.1 hascii
      | multi c cont hc =>
        obtain ⟨rfl, hsplit⟩ := List.cons.inj h
        have hnil : cont = [] := List.eq_nil_of_length_eq_zero (by rw [hc.2, hone])
        subst hnil
        obtain ⟨s', hs', hlen, hcmds⟩ := ih hrest hsplit
        refine ⟨s', hs', Nat.le_succ_of_le hlen, ?_⟩
        rw [cmdsAfter, Trace.charCmds, hone, hcmds]
        rfl

theorem textIffWhole_cmdsAfter (s : Str) (pending : Option Nat)
    (hpending : ∀ hi ∈ pending, Trace.isHighSurrogate hi)
    (hvalid : ValidUtf8 (s.flatMap Item.bytes)) : TextIffWhole (cmdsAfter pending s) := by
  induction hn : s.length using Nat.strong_induction_on generalizing s pending with
  | _ n ih =>
  cases s with
  | nil => exact .nil
  | cons i s =>
    rw [List.length_cons] at hn
    rw [List.flatMap_cons] at hvalid
    have ih' (s' : Str) (hlen : s'.length ≤ s.length) (hs' : ValidUtf8 (s'.flatMap Item.bytes)) :
        TextIffWhole (cmdsAfter none s') :=
      ih s'.length (by omega) s' none (fun _ h => by cases h) hs' rfl
    cases i with
    | escape c hc =>
      have hrest : ValidUtf8 (c :: s.flatMap Item.bytes) := hvalid.tail (by decide)
      rw [cmdsAfter]
      by_cases hascii : c < 0x80
      · exact (Trace.textIffWhole_escape hascii).append
          (ih' s (Nat.le_refl _) (hrest.tail hascii))
      · -- the other bytes of the character are the next items
        obtain ⟨ch, t, r, hencode, hsplit, hr⟩ := hrest.uncons
        obtain ⟨d, u, hencode', -, hcont, -⟩ := encode_cons ch
        obtain ⟨rfl, rfl⟩ := List.cons.inj (hencode'.symm.trans hencode)
        obtain ⟨s', rfl, hlen, hcmds⟩ := cmds_continuations hcont hsplit
        rw [Trace.escapeCmds_of_not_ascii hascii, hcmds, ← List.append_assoc]
        exact (textIffWhole_bytewise hencode' hascii).append (ih' s' hlen hr)
    | ascii c hc =>
      have hrest := ih' s (Nat.le_refl _) (hvalid.tail hc.1)
      rw [cmdsAfter]
      split
      · exact (keepsClean_space.textIffWhole (by simp)).append hrest
      · exact (Trace.textIffWhole_byte hc.1).append hrest
    | multi c cont hc =>
      obtain ⟨ch, t, r, hencode, hsplit, hr⟩ := ValidUtf8.uncons hvalid
      obtain ⟨d, u, hencode', hlen, -, -⟩ := encode_cons ch
      obtain ⟨rfl, rfl⟩ := List.cons.inj (hencode'.symm.trans hencode)
      have hcont : cont.length = u.length := by
        rw [hc.2, hlen]
        rfl
      -- the item is exactly one character of the text
      obtain ⟨rfl, rfl⟩ := List.append_inj hsplit hcont
      rw [cmdsAfter]
      refine ((keepsClean_char hencode' hlen).textIffWhole ?_).append (ih' s (Nat.le_refl _) hr)
      intro x hx
      simp at hx
    | unicode ds hds =>
      have hdigits : ∀ c ∈ ds, c < 0x80 := by
        intro c hc
        have hhex : ∀ c : UInt8, (hexDigit c).isSome → c < 0x80 := by decide +kernel
        exact hhex c (List.all_eq_true.mp hds.2 c hc)
      have hrest : ValidUtf8 (s.flatMap Item.bytes) :=
        ((hvalid.tail (by decide)).tail (by decide)).drop_ascii hdigits
      have hutf8 {cp : Nat} (hcp : cp.isValidChar) :
          TextIffWhole (.utf8 cp :: cmdsAfter none s) :=
        ((keepsClean_utf8 hcp).textIffWhole (by simp)).append (ih' s (Nat.le_refl _) hrest)
      have hlt := hexValue_lt hds.1
      simp only [cmdsAfter]
      split
      · next hhi =>
        exact ih s.length (by omega) s _ (fun hi heq => Option.some.inj heq ▸ hhi) hrest rfl
      · next hhi =>
        split
        · next hlo =>
          -- a low surrogate counts only behind a high one
          cases pending with
          | none => exact ih' s (Nat.le_refl _) hrest
          | some hi => exact hutf8 (Trace.surrogatePair_valid (hpending hi rfl) hlo)
        · next hlo =>
          apply hutf8
          unfold Nat.isValidChar
          omega

end Str

/-! ## 2. Trees -/

namespace Cst

/-- The strings of a tree, its keys among them. -/
def strings {p : Part} : Cst p → List Str
  | emptyObject _ | emptyArray _ | literal _ | number _ => []
  | object ms => ms.strings
  | array _ es => es.strings
  | string s => [s]
  | lastMember k v _ => k.name :: v.strings
  | member k v _ ms => k.name :: (v.strings ++ ms.strings)
  | lastElement v _ => v.strings
  | element v _ _ es => v.strings ++ es.strings

/-- Each of them stands in the text between its quotes. -/
theorem infix_of_mem_strings {p : Part} (t : Cst p) : ∀ s ∈ t.strings, s.bytes <:+: t.bytes := by
  have hkey (k : Key) (r : List UInt8) : k.name.bytes <:+: k.bytes ++ r := by
    refine (List.IsInfix.trans ?_ (List.prefix_append k.bytes r).isInfix)
    exact ⟨k.before.bytes, k.after.bytes ++ colon :: k.gap.bytes, by
      rw [Key.bytes, List.append_assoc]⟩
  have hleft {u v : List UInt8} (w : List UInt8) (h : u <:+: v) : u <:+: v ++ w :=
    h.trans (List.prefix_append v w).isInfix
  have hright {u v : List UInt8} (w : List UInt8) (h : u <:+: v) : u <:+: w ++ v :=
    h.trans (List.suffix_append w v).isInfix
  induction t with
  | emptyObject | emptyArray | literal | number => exact List.forall_mem_nil _
  | object ms ih => exact fun s hs => hright [lbrace] (ih s hs)
  | array w es ih => exact fun s hs => hright [lbracket] (hright w.bytes (ih s hs))
  | string s => exact List.forall_mem_singleton.mpr List.infix_rfl
  | lastMember k v w ih =>
    refine List.forall_mem_cons.mpr ⟨hkey k _, fun s hs => ?_⟩
    exact hright k.bytes (hleft _ (ih s hs))
  | member k v w ms ihv ihms =>
    refine List.forall_mem_cons.mpr ⟨hkey k _, List.forall_mem_append.mpr ⟨?_, ?_⟩⟩
    · exact fun s hs => hright k.bytes (hleft _ (ihv s hs))
    · exact fun s hs =>
        hright k.bytes (hright v.bytes (hright w.bytes (hright [comma] (ihms s hs))))
  | lastElement v w ih => exact fun s hs => hleft _ (ih s hs)
  | element v w gap es ihv ihes =>
    refine List.forall_mem_append.mpr ⟨?_, ?_⟩
    · exact fun s hs => hleft _ (ihv s hs)
    · exact fun s hs =>
        hright v.bytes (hright w.bytes (hright [comma] (hright gap.bytes (ihes s hs))))

/-- What a tree puts on the line is text if its strings are. -/
theorem textIffWhole_cmds {p : Part} (t : Cst p) (h : ∀ s ∈ t.strings, TextIffWhole s.cmds)
    (slip : Bool) (depth : Nat) : TextIffWhole (t.cmds slip depth) := by
  have hflush : TextIffWhole [.flush] := keepsClean_flush.textIffWhole (by simp)
  have hindent (depth : Nat) : TextIffWhole [.indent depth] :=
    (keepsClean_indent depth).textIffWhole (by simp)
  have hascii {s : List UInt8} (hs : ∀ c ∈ s, c < 0x80) : TextIffWhole [.str s] :=
    (keepsClean_ascii hs).textIffWhole (by simp)
  have hchild {deeper : Bool} {cmds : Nat → List Cmd} (hcmds : ∀ d, TextIffWhole (cmds d))
      (depth : Nat) : TextIffWhole (childCmds deeper depth cmds) := by
    unfold childCmds
    split
    · exact hflush.append (hcmds _)
    · exact (hcmds _).append hflush
  have hcolon : TextIffWhole [.str (Ascii.bytes ": ")] := hascii (by decide +kernel)
  have hdash : TextIffWhole [.str (Ascii.bytes "- ")] := hascii (by decide +kernel)
  induction t generalizing slip depth with
  | emptyObject | emptyArray => exact .nil
  | object ms ih => exact ih h false depth
  | array w es ih => exact ih h false depth
  | string s => exact h s List.mem_cons_self
  | literal l => exact hascii (by cases l <;> decide +kernel)
  | number n =>
    have hnum : ∀ c : UInt8, isNumChar c = true → c < 0x80 := by decide +kernel
    have hbytes : ∀ c ∈ n.bytes, c < 0x80 := fun c hc => hnum c (n.isNumChar_of_mem c hc)
    apply (keepsClean_bytes hbytes).textIffWhole
    intro c hc
    obtain ⟨d, hd, heq⟩ := List.mem_map.mp hc
    cases heq
    exact hbytes c hd
  | lastMember k v w ih =>
    obtain ⟨hk, hv⟩ := List.forall_mem_cons.mp h
    exact (hindent depth).append (hk.append (hcolon.append (hchild (ih hv false) depth)))
  | member k v w ms ihv ihms =>
    obtain ⟨hk, hrest⟩ := List.forall_mem_cons.mp h
    obtain ⟨hv, hms⟩ := List.forall_mem_append.mp hrest
    exact (hindent depth).append (hk.append (hcolon.append
      ((hchild (ihv hv false) depth).append (ihms hms false depth))))
  | lastElement v w ih =>
    exact (hindent depth).append (hdash.append (hchild (ih h false) depth))
  | element v w gap es ihv ihes =>
    obtain ⟨hv, hes⟩ := List.forall_mem_append.mp h
    exact (hindent depth).append (hdash.append
      ((hchild (ihv hv false) depth).append (ihes hes _ depth)))

/-- The strings of valid text are valid. -/
theorem valid_of_mem_strings {p : Part} {t : Cst p} {input : List UInt8}
    (ht : t.bytes <:+: input) (h : ValidUtf8 input) :
    ∀ s ∈ t.strings, ValidUtf8 (s.flatMap Item.bytes) := by
  intro s hs
  obtain ⟨a, b, hab⟩ := (infix_of_mem_strings t s hs).trans ht
  have hbehind : ValidUtf8 (s.flatMap Item.bytes ++ quote :: b) := by
    refine h.behind ⟨a, ?_⟩ (by decide : quote < 0x80)
    rw [← hab, Str.bytes]
    simp
  exact (hbehind.cut (by decide)).1

end Cst

/-! ## 3. The output -/

/-- Of an accepted valid input all lines are valid by themselves exactly when no character is torn
that stands behind a backslash. -/
theorem lines_valid_iff (input : List UInt8) (h : ValidUtf8 input) {e : Exit}
    (he : Stream.main input = some e) (haccept : e.status = 0) :
    e.stdout = printed (Trace.lines input) ∧
      ((∀ l ∈ Trace.lines input, ValidUtf8 l) ↔ AllStayWhole (Trace.calls input) .empty) := by
  obtain ⟨e', he', hout⟩ := Trace.main_stdout input
  obtain rfl : e' = e := Option.some.inj (he'.symm.trans he)
  refine ⟨hout, ?_⟩
  obtain ⟨t, ht, hweight⟩ := (Stream.status_eq_zero_iff he).mp haccept
  have hcalls : Trace.calls input = t.value.cmds false 0 ++ [.flush] := by
    rw [Trace.calls, ← ht, Trace.run_text t hweight]
    rfl
  have hinfix : t.value.bytes <:+: input := by
    rw [← ht]
    exact ⟨t.before.bytes, t.after.bytes, by rw [Text.bytes, List.append_assoc]⟩
  have hstrings : ∀ s ∈ t.value.strings, TextIffWhole s.cmds := fun s hs =>
    Str.textIffWhole_cmdsAfter s none (fun _ hhi => by cases hhi)
      (Cst.valid_of_mem_strings hinfix h s hs)
  have hflush : TextIffWhole [.flush] := keepsClean_flush.textIffWhole (by simp)
  obtain ⟨hwhole, htorn⟩ := (t.value.textIffWhole_cmds hstrings false 0).append hflush .empty .empty
  rw [Trace.lines, hcalls]
  refine ⟨fun hvalid => ?_, fun hall => (hwhole hall).2⟩
  by_contra hnot
  obtain ⟨l, hl, hinvalid⟩ := htorn hnot
  exact hinvalid (hvalid l hl)

theorem a_plain : (0x61 : UInt8) < 0x80 ∧ (0x61 : UInt8) ≠ quote ∧ (0x61 : UInt8) ≠ backslash := by
  decide

theorem lead_ne_u : (0xC3 : UInt8) ≠ 0x75 := by decide

theorem continuation_alone :
    ¬ (0xA9 : UInt8) < 0x80 ∧ ([] : List UInt8).length = utf8CharLen 0xA9 - 1 := by
  decide

/-- A string of `n` letters and an `é` behind a backslash. -/
def escaped (n : Nat) : Text :=
  ⟨.none, .string (List.replicate n (.ascii 0x61 a_plain) ++
    [.escape 0xC3 lead_ne_u, .multi 0xA9 [] continuation_alone]), .none⟩

theorem escaped_accepted (n : Nat) : ∃ e, Stream.main (escaped n).bytes = some e ∧
    e.status = 0 := by
  obtain ⟨e, he, haccept, -⟩ := Stream.main_text (escaped n) (Nat.zero_le _)
  exact ⟨e, he, haccept⟩

theorem escaped_lines (n : Nat) : Trace.lines (escaped n).bytes =
    linesAll ((escaped n).value.cmds false 0 ++ [.flush]) .empty := by
  rw [Trace.lines, Trace.calls, Trace.run_text (escaped n) (Nat.zero_le _)]
  rfl

theorem escaped_valid (n : Nat) : ValidUtf8 (escaped n).bytes := by
  have hbytes : (escaped n).bytes =
      (quote :: (List.replicate n 0x61 ++ [backslash])) ++ ([0xC3, 0xA9] ++ [quote]) := by
    simp [escaped, Text.bytes, Cst.bytes, Str.bytes, Ws.none, Item.bytes, List.flatMap_replicate]
  have hchar : ValidUtf8 [0xC3, 0xA9] := ⟨[Char.ofNat 0xE9], by decide⟩
  have hend : ValidUtf8 [quote] := validUtf8_ascii (List.forall_mem_singleton.mpr (by decide))
  rw [hbytes]
  refine (validUtf8_ascii ?_).append (hchar.append hend)
  intro c hc
  rcases List.mem_cons.mp hc with rfl | hc
  · decide
  rcases List.mem_append.mp hc with hc | hc
  · rw [(List.mem_replicate.mp hc).2]
    decide
  · rw [List.mem_singleton.mp hc]
    decide

/-- Behind 79 letters the first line ends with the first byte of the character. -/
theorem not_lines_valid_escaped : ¬ ∀ input e, ValidUtf8 input → Stream.main input = some e →
    e.status = 0 → ∀ l ∈ Trace.lines input, ValidUtf8 l := by
  intro h
  obtain ⟨e, he, haccept⟩ := escaped_accepted 79
  have hline : List.replicate 79 0x61 ++ [0xC3] ∈ Trace.lines (escaped 79).bytes := by
    rw [escaped_lines]
    decide +kernel
  have hinvalid : ¬ ValidUtf8 (List.replicate 79 0x61 ++ [0xC3]) :=
    not_validUtf8_partial (u := []) (by decide)
  exact hinvalid (h _ e (escaped_valid 79) he haccept _ hline)

/-- By itself the character fits on the line. -/
theorem lines_valid_escaped : AllStayWhole (Trace.calls (escaped 0).bytes) .empty := by
  obtain ⟨e, he, haccept⟩ := escaped_accepted 0
  refine (lines_valid_iff (escaped 0).bytes (escaped_valid 0) he haccept).2.mp ?_
  have hlines : Trace.lines (escaped 0).bytes = [[0xC3, 0xA9]] := by
    rw [escaped_lines]
    decide +kernel
  rw [hlines]
  exact List.forall_mem_singleton.mpr ⟨[Char.ofNat 0xE9], by decide⟩

end J2t
