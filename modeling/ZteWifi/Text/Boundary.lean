import ZteWifi.Text.Utf8
import ZteWifi.Text.Width

/-!
# Lines and characters

A line buffer that holds whole characters is broken between two of them, since it is broken at a
space.  So whatever is appended in whole characters is printed in lines that are valid by themselves.
-/

open Ascii Text

namespace LineBuf

/-! ## 1. Whole characters -/

/-- The line consists of whole characters, and has room for another one. -/
structure Clean (b : LineBuf) : Prop where
  holds : Holds 0 b
  valid : ValidUtf8 b.line

/-- These calls keep the line clean and print valid lines. -/
def KeepsClean (cs : List Cmd) : Prop :=
  ∀ b, Clean b → Clean (execAll cs b) ∧ ∀ l ∈ linesAll cs b, ValidUtf8 l

theorem Clean.empty : Clean .empty := ⟨.empty, .nil⟩

theorem KeepsClean.nil : KeepsClean [] := fun _ h => ⟨h, List.forall_mem_nil _⟩

theorem KeepsClean.append {cs ds : List Cmd} (h : KeepsClean cs) (h' : KeepsClean ds) :
    KeepsClean (cs ++ ds) := by
  intro b hb
  obtain ⟨hmid, hlines⟩ := h b hb
  obtain ⟨hend, hlines'⟩ := h' _ hmid
  rw [execAll_append, linesAll_append, List.forall_mem_append]
  exact ⟨hend, hlines, hlines'⟩

theorem KeepsClean.flatten {ps : List (List Cmd)} (h : ∀ p ∈ ps, KeepsClean p) :
    KeepsClean ps.flatten := by
  induction ps with
  | nil => exact .nil
  | cons p ps ih =>
    obtain ⟨hp, hps⟩ := List.forall_mem_cons.mp h
    exact hp.append (ih hps)

/-! ## 2. Breaking a line -/

theorem validUtf8_rdropWhile {l : Line} (h : ValidUtf8 l) :
    ValidUtf8 (l.rdropWhile (· = space)) := by
  induction l using List.reverseRecOn with
  | nil => exact h
  | append_singleton l c ih =>
    by_cases hc : c = space
    · rw [List.rdropWhile_concat_pos _ _ _ (by simpa using hc)]
      subst hc
      exact ih (h.cut (by decide)).1
    · rwa [List.rdropWhile_concat_neg _ _ _ (by simpa using hc)]

/-- A space separates characters. -/
theorem validUtf8_breakLine {l : Line} (h : ValidUtf8 l) :
    ValidUtf8 (breakLine l).1 ∧ ValidUtf8 (breakLine l).2 := by
  rcases breakLine_cases l with ⟨-, heq⟩ | ⟨p, q, rfl, -, heq⟩
  · rw [heq]
    exact ⟨h, .nil⟩
  · obtain ⟨hp, hq⟩ := h.cut (by decide)
    rw [heq]
    exact ⟨validUtf8_rdropWhile hp, hq⟩

theorem validUtf8_roomLines {l : Line} (h : ValidUtf8 l) (n : Nat) :
    ∀ m ∈ roomLines n l, ValidUtf8 m := by
  unfold roomLines
  split
  · exact List.forall_mem_singleton.mpr (validUtf8_breakLine h).1
  · exact List.forall_mem_nil _

theorem validUtf8_flushLines {l : Line} (h : ValidUtf8 l) : ∀ m ∈ flushLines l, ValidUtf8 m := by
  unfold flushLines
  split
  · exact List.forall_mem_nil _
  · exact List.forall_mem_singleton.mpr (validUtf8_rdropWhile h)

theorem validUtf8_reserve {b : LineBuf} (h : ValidUtf8 b.line) (n : Nat) :
    ValidUtf8 (reserve n b).line := by
  unfold reserve
  split
  · rw [wrapLine_eq]
    exact (validUtf8_breakLine h).2
  · exact h

/-! ## 3. Appending characters -/

/-- These calls append one character, for which room is made as a whole. -/
def Appends (ch : Char) (cs : List Cmd) : Prop :=
  ∀ b, execAll cs b =
    appendAllNc (String.utf8EncodeChar ch) (reserve (String.utf8EncodeChar ch).length b)

theorem appends_byte {ch : Char} {c : UInt8} (hencode : String.utf8EncodeChar ch = [c]) :
    Appends ch [.byte c] := by
  intro b
  rw [hencode]
  exact appendByte_eq c b

theorem appends_utf8 (ch : Char) : Appends ch [.utf8 ch.toNat] := by
  intro b
  rw [← utf8Bytes_eq]
  rfl

/-- A character given by its bytes. -/
theorem appends_char {ch : Char} {c : UInt8} {t : List UInt8}
    (hencode : String.utf8EncodeChar ch = c :: t) (hlen : utf8CharLen c = t.length + 1) :
    Appends ch (.lead (utf8CharLen c) c :: t.map .raw) := by
  intro b
  rw [hencode, execAll_cons, execAll_map_raw, hlen]
  rfl

theorem Clean.put {b : LineBuf} (h : Clean b) (ch : Char) :
    Clean (appendAllNc (String.utf8EncodeChar ch)
      (reserve (String.utf8EncodeChar ch).length b)) := by
  obtain ⟨c, t, hencode, hlen, -, hascii⟩ := encode_cons ch
  have hle := utf8CharLen_le c
  have hspace : c = space → t.length + 1 = 1 := by
    rintro rfl
    rw [hascii.mpr (by decide)]
    rfl
  obtain ⟨-, hroom⟩ := h.holds.reserve (t.length + 1)
  have hline : (appendAllNc (c :: t) (reserve (t.length + 1) b)).line =
      (reserve (t.length + 1) b).line ++ (c :: t) := by
    rw [appendAllNc_eq]
    rw [List.length_cons]
    unfold maxLine at *
    omega
  rw [hencode]
  refine ⟨?_, ?_⟩
  · have hlead : Holds t.length (appendByteNc c (reserve (t.length + 1) b)) :=
      h.holds.lead (n := t.length + 1) (Nat.le_add_left 1 _) (by omega) hspace
    exact hlead.appendAllNc
  · show ValidUtf8 (appendAllNc (c :: t) (reserve (t.length + 1) b)).line
    rw [hline, ← hencode]
    exact (validUtf8_reserve h.valid _).append (validUtf8_encode ch)

theorem Clean.appendByte {b : LineBuf} (h : Clean b) {c : UInt8} (hc : c < 0x80) :
    Clean (appendByte c b) := by
  have hput := h.put (Char.ofNat c.toNat)
  rw [encode_ascii c hc] at hput
  rw [appendByte_eq]
  exact hput

theorem Appends.keepsClean {cs : List Cmd} {ch : Char} (hexec : Appends ch cs)
    (hlines : ∀ b, linesAll cs b = roomLines (String.utf8EncodeChar ch).length b.line) :
    KeepsClean cs := by
  intro b hb
  rw [hexec, hlines]
  exact ⟨hb.put ch, validUtf8_roomLines hb.valid _⟩

theorem keepsClean_byte {c : UInt8} (hc : c < 0x80) : KeepsClean [.byte c] := by
  have hchar := encode_ascii c hc
  refine (appends_byte hchar).keepsClean fun b => ?_
  rw [hchar]
  exact List.append_nil _

theorem keepsClean_bytes {s : List UInt8} (hs : ∀ c ∈ s, c < 0x80) :
    KeepsClean (s.map .byte) := by
  induction s with
  | nil => exact .nil
  | cons c s ih =>
    obtain ⟨hc, hs⟩ := List.forall_mem_cons.mp hs
    exact (keepsClean_byte hc).append (ih hs)

theorem keepsClean_utf8 {cp : Nat} (h : cp.isValidChar) : KeepsClean [.utf8 cp] := by
  refine (appends_utf8 (Char.ofNatAux cp h)).keepsClean fun b => ?_
  rw [← utf8Bytes_eq]
  exact List.append_nil _

theorem linesAll_map_raw (t : List UInt8) (b : LineBuf) : linesAll (t.map .raw) b = [] := by
  induction t generalizing b with
  | nil => rfl
  | cons c t ih => exact ih _

theorem keepsClean_char {ch : Char} {c : UInt8} {t : List UInt8}
    (hencode : String.utf8EncodeChar ch = c :: t) (hlen : utf8CharLen c = t.length + 1) :
    KeepsClean (.lead (utf8CharLen c) c :: t.map .raw) := by
  refine (appends_char hencode hlen).keepsClean fun b => ?_
  rw [hencode, linesAll, linesAll_map_raw, List.append_nil, hlen]
  rfl

theorem keepsClean_space : KeepsClean [.space] := by
  intro b hb
  have hbyte := keepsClean_byte (c := space) (by decide) b hb
  show Clean (appendSpace b) ∧ ∀ l ∈ lines .space b ++ [], ValidUtf8 l
  rw [appendSpace, lines, List.append_nil]
  split
  · rw [linesAll, linesAll, List.append_nil] at hbyte
    exact hbyte
  · exact ⟨hb, List.forall_mem_nil _⟩

theorem keepsClean_flush : KeepsClean [.flush] := by
  intro b hb
  refine ⟨⟨hb.holds.flushLine, ?_⟩, ?_⟩
  · show ValidUtf8 (flushLine b).line
    rw [flushLine_line]
    exact .nil
  · rw [linesAll, linesAll, List.append_nil]
    exact validUtf8_flushLines hb.valid

theorem keepsClean_indent (depth : Nat) : KeepsClean [.indent depth] := by
  intro b hb
  refine ⟨⟨hb.holds.outputIndent depth, ?_⟩, ?_⟩
  · show ValidUtf8 (outputIndent depth b).line
    rw [outputIndent_eq]
    apply validUtf8_ascii
    intro c hc
    rw [(List.mem_replicate.mp hc).2]
    decide
  · rw [linesAll, linesAll, List.append_nil]
    exact validUtf8_flushLines hb.valid

/-- An ASCII text. -/
theorem keepsClean_ascii {s : List UInt8} (hs : ∀ c ∈ s, c < 0x80) : KeepsClean [.str s] := by
  have hbytes : ∀ b, execAll [.str s] b = execAll (s.map .byte) b ∧
      linesAll [.str s] b = linesAll (s.map .byte) b := by
    intro b
    show appendStrLoop 0 s b = _ ∧ strLines 0 s b ++ [] = _
    rw [List.append_nil]
    induction s generalizing b with
    | nil => exact ⟨rfl, rfl⟩
    | cons c s ih =>
      obtain ⟨hc, hs⟩ := List.forall_mem_cons.mp hs
      obtain ⟨hexec, hlines⟩ := ih hs (appendByte c b)
      rw [appendStrLoop, strLines, if_pos hc, if_pos hc, hexec, hlines]
      exact ⟨rfl, rfl⟩
  intro b hb
  rw [(hbytes b).1, (hbytes b).2]
  exact keepsClean_bytes hs b hb

/-- A text that is a single character. -/
theorem keepsClean_encode (ch : Char) : KeepsClean [.str (String.utf8EncodeChar ch)] := by
  obtain ⟨c, t, hencode, hlen, -, hascii⟩ := encode_cons ch
  by_cases hc : c < 0x80
  · rw [hencode, hascii.mpr hc]
    exact keepsClean_ascii (List.forall_mem_singleton.mpr hc)
  · have happends : Appends ch [.str (c :: t)] := by
      intro b
      rw [hencode]
      exact (appendStr_char hc hlen b).1
    rw [hencode]
    refine happends.keepsClean fun b => ?_
    rw [hencode]
    exact (List.append_nil _).trans (appendStr_char hc hlen b).2

/-! ## 4. Characters appended byte by byte -/

/-- What stands behind the last space of a line. -/
def behind (l : Line) : Line := if space ∈ l then (breakLine l).2 else l

/-- Of a character with the first byte `c` no other byte comes to a full line without a space. -/
def StaysWhole (c : UInt8) (l : Line) : Prop :=
  maxLine ≤ (behind l).length ∨ (behind l).length + utf8CharLen c ≤ maxLine

instance (c : UInt8) (l : Line) : Decidable (StaysWhole c l) :=
  inferInstanceAs (Decidable (_ ∨ _))

theorem behind_of_notMem {l : Line} (h : space ∉ l) : behind l = l := if_neg h

theorem behind_append {p q : Line} (hq : space ∉ q) : behind (p ++ space :: q) = q := by
  rw [behind, if_pos (List.mem_append_right p List.mem_cons_self), breakLine_append hq]

theorem behind_cases (l : Line) : (space ∉ l ∧ behind l = l) ∨
    ∃ p q, l = p ++ space :: q ∧ space ∉ q ∧ behind l = q := by
  by_cases h : space ∈ l
  · obtain ⟨p, q, rfl, hq⟩ := exists_lastSpace h
    exact .inr ⟨p, q, rfl, hq, behind_append hq⟩
  · exact .inl ⟨h, behind_of_notMem h⟩

theorem length_behind_le (l : Line) : (behind l).length ≤ l.length := by
  rcases behind_cases l with ⟨-, heq⟩ | ⟨p, q, rfl, -, heq⟩
  · rw [heq]
  · rw [heq, List.length_append, List.length_cons]
    omega

theorem behind_append_of_notMem {u : Line} (hu : space ∉ u) (l : Line) :
    behind (l ++ u) = behind l ++ u := by
  rcases behind_cases l with ⟨h, heq⟩ | ⟨p, q, rfl, hq, heq⟩
  · rw [heq, behind_of_notMem]
    rw [List.mem_append, not_or]
    exact ⟨h, hu⟩
  · rw [heq, List.append_assoc, List.cons_append, behind_append]
    rw [List.mem_append, not_or]
    exact ⟨hq, hu⟩

/-- The next byte of a character stays with those before it, or the line is full and has no space. -/
theorem Holds.next_byte {b : LineBuf} (hb : Holds 0 b) {a u : Line} (hline : b.line = a ++ u)
    (hu : space ∉ u) {x : UInt8} (hx : space ≠ x) :
    (∃ a', (LineBuf.appendByte x b).line = a' ++ (u ++ [x]) ∧
      behind (LineBuf.appendByte x b).line = behind b.line ++ [x] ∧
      (LineBuf.appendByte x b).line.length ≤ maxLine ∧
      (ValidUtf8 a → ValidUtf8 a' ∧ ∀ l ∈ roomLines 1 b.line, ValidUtf8 l)) ∨
    (space ∉ b.line ∧ maxLine ≤ b.line.length ∧ roomLines 1 b.line = [b.line]) := by
  have hlen := hb.length_le
  have hx' : space ∉ [x] := by
    rw [List.mem_singleton]
    exact hx
  by_cases hfull : maxLine ≤ b.line.length
  · have hlines : roomLines 1 b.line = [(breakLine b.line).1] := if_pos (Nat.lt_succ_of_le hfull)
    rcases behind_cases a with ⟨ha, -⟩ | ⟨p, q, rfl, hq, -⟩
    · right
      have hspace : space ∉ b.line := by
        rw [hline, List.mem_append, not_or]
        exact ⟨ha, hu⟩
      rw [hlines, breakLine_of_notMem hspace]
      exact ⟨hspace, hfull, rfl⟩
    · -- the line is broken in the text before the character
      left
      have hqu : space ∉ q ++ u := by
        rw [List.mem_append, not_or]
        exact ⟨hq, hu⟩
      have hbreak : breakLine b.line = (p.rdropWhile (· = space), q ++ u) := by
        rw [hline, List.append_assoc, List.cons_append, breakLine_append hqu]
      have hbehind : behind b.line = q ++ u := by
        rw [hline, List.append_assoc, List.cons_append, behind_append hqu]
      have hnext : (LineBuf.appendByte x b).line = q ++ (u ++ [x]) := by
        rw [LineBuf.appendByte, if_pos hfull, wrapLine_eq, hbreak, appendByteNc_eq]
        · exact List.append_assoc q u [x]
        · have hshort := length_behind_le b.line
          rw [hbehind] at hshort
          exact Nat.le_trans hshort hlen
      refine ⟨q, hnext, ?_, ?_, fun ha => ?_⟩
      · rw [hnext, hbehind, ← List.append_assoc, behind_append_of_notMem hx',
          behind_of_notMem hqu]
      · have hkept := hb.length_kept
        rw [hbreak] at hkept
        rw [hnext, ← List.append_assoc, List.length_append, List.length_singleton]
        exact Nat.add_le_of_le_sub (by decide) hkept
      · obtain ⟨hp, hq'⟩ := ha.cut (by decide)
        rw [hlines, hbreak]
        exact ⟨hq', List.forall_mem_singleton.mpr (validUtf8_rdropWhile hp)⟩
  · left
    have hnext : (LineBuf.appendByte x b).line = a ++ (u ++ [x]) := by
      rw [LineBuf.appendByte, if_neg hfull, appendByteNc_eq hlen, ← List.append_assoc, ← hline]
    have hlines : roomLines 1 b.line = [] :=
      if_neg (Nat.not_lt.mpr (Nat.not_le.mp hfull))
    refine ⟨a, hnext, ?_, ?_, fun ha => ⟨ha, ?_⟩⟩
    · rw [hnext, ← List.append_assoc, ← hline, behind_append_of_notMem hx']
    · rw [hnext, ← List.append_assoc, ← hline, List.length_append, List.length_singleton]
      exact Nat.not_le.mp hfull
    · rw [hlines]
      exact List.forall_mem_nil _

theorem appendByte_full {b : LineBuf} (hfull : maxLine ≤ b.line.length) (hspace : space ∉ b.line)
    (x : UInt8) : (appendByte x b).line = [x] := by
  rw [appendByte, if_pos hfull, wrapLine_eq, breakLine_of_notMem hspace, appendByteNc_eq]
  · rfl
  · exact Nat.zero_le _

/-- The other bytes of a character, each behind a test of its own. -/
def bytewise (t : List UInt8) : List Cmd := t.map (.lead 1)

theorem execAll_bytewise (x : UInt8) (t : List UInt8) (b : LineBuf) :
    execAll (bytewise (x :: t)) b = execAll (bytewise t) (appendByte x b) := by
  rw [appendByte_eq]
  rfl

theorem linesAll_bytewise (x : UInt8) (t : List UInt8) (b : LineBuf) :
    linesAll (bytewise (x :: t)) b =
      roomLines 1 b.line ++ linesAll (bytewise t) (appendByte x b) := by
  rw [appendByte_eq]
  rfl

/-- Where the bytes find room behind the last space, the character stays whole. -/
theorem bytewise_whole {t : List UInt8} (ht : space ∉ t) {a u : Line} {b : LineBuf}
    (hb : Holds 0 b) (hline : b.line = a ++ u) (ha : ValidUtf8 a) (hu : space ∉ u)
    (hfits : (behind b.line).length + t.length ≤ maxLine) :
    Holds 0 (execAll (bytewise t) b) ∧
      (∃ a', (execAll (bytewise t) b).line = a' ++ (u ++ t) ∧ ValidUtf8 a') ∧
      ∀ l ∈ linesAll (bytewise t) b, ValidUtf8 l := by
  induction t generalizing a u b with
  | nil =>
    refine ⟨hb, ⟨a, ?_, ha⟩, List.forall_mem_nil _⟩
    rw [List.append_nil]
    exact hline
  | cons x t ih =>
    rw [List.mem_cons, not_or] at ht
    rw [List.length_cons] at hfits
    rcases hb.next_byte hline hu ht.1 with ⟨a', hnext, hbehind, -, hvalid⟩ | ⟨hspace, hfull, -⟩
    · obtain ⟨ha', hlines⟩ := hvalid ha
      have hux : space ∉ u ++ [x] := by
        rw [List.mem_append, List.mem_singleton, not_or]
        exact ⟨hu, ht.1⟩
      have hfits' : (behind (appendByte x b).line).length + t.length ≤ maxLine := by
        rw [hbehind, List.length_append, List.length_singleton]
        omega
      obtain ⟨hend, hchar, hlines'⟩ := ih ht.2 (hb.appendByte x) hnext ha' hux hfits'
      rw [execAll_bytewise, linesAll_bytewise, List.forall_mem_append]
      refine ⟨hend, ?_, hlines, hlines'⟩
      rwa [List.append_assoc] at hchar
    -- without a space the line would have to be full before the character is
    · rw [behind_of_notMem hspace] at hfits
      omega

/-- The first bytes of a character are no text. -/
theorem not_validUtf8_partial {c : UInt8} {a u : List UInt8}
    (h : u.length + 1 < utf8CharLen c) : ¬ ValidUtf8 (a ++ c :: u) := by
  intro hvalid
  have hled := hvalid.led.suffix (List.suffix_append a (c :: u))
  have hlen := hled.1.1
  omega

/-- Where they do not, it is torn. -/
theorem bytewise_torn {t : List UInt8} (ht : space ∉ t) {c : UInt8} {a u : Line} {b : LineBuf}
    (hb : Holds 0 b) (hline : b.line = a ++ c :: u) (hu : space ∉ c :: u)
    (hlen : utf8CharLen c = u.length + t.length + 1) (hle : b.line.length ≤ maxLine)
    (hover : maxLine < (behind b.line).length + t.length) :
    ∃ l ∈ linesAll (bytewise t) b, ¬ ValidUtf8 l := by
  induction t generalizing a u b with
  | nil =>
    have hbehind := length_behind_le b.line
    rw [List.length_nil] at hover
    omega
  | cons x t ih =>
    rw [List.mem_cons, not_or] at ht
    rw [List.length_cons] at hover hlen
    rw [linesAll_bytewise]
    rcases hb.next_byte hline hu ht.1 with ⟨a', hnext, hbehind, hle', -⟩ | ⟨-, -, hlines⟩
    · have hux : space ∉ c :: (u ++ [x]) := by
        rw [← List.cons_append, List.mem_append, List.mem_singleton, not_or]
        exact ⟨hu, ht.1⟩
      have hlen' : utf8CharLen c = (u ++ [x]).length + t.length + 1 := by
        rw [List.length_append, List.length_singleton]
        omega
      have hover' : maxLine < (behind (appendByte x b).line).length + t.length := by
        rw [hbehind, List.length_append, List.length_singleton]
        omega
      obtain ⟨l, hl, hinvalid⟩ :=
        ih ht.2 (hb.appendByte x) hnext hux hlen' hle' hover'
      exact ⟨l, List.mem_append_right _ hl, hinvalid⟩
    · -- the whole line is printed, and the character is not complete
      refine ⟨b.line, ?_, ?_⟩
      · rw [hlines]
        exact List.mem_append_left _ List.mem_cons_self
      · rw [hline]
        exact not_validUtf8_partial (by omega)

/-- A character that is appended byte by byte: it stays whole, or a line is printed that is no
text. -/
theorem Clean.bytewise {b : LineBuf} (h : Clean b) {ch : Char} {c : UInt8} {t : List UInt8}
    (hencode : String.utf8EncodeChar ch = c :: t) (hc : ¬ c < 0x80) :
    (StaysWhole c b.line → Clean (execAll (bytewise (c :: t)) b) ∧
      ∀ l ∈ linesAll (bytewise (c :: t)) b, ValidUtf8 l) ∧
    (¬ StaysWhole c b.line → ∃ l ∈ linesAll (bytewise (c :: t)) b, ¬ ValidUtf8 l) := by
  obtain ⟨d, u, hencode', hlen, hcont, -⟩ := encode_cons ch
  obtain ⟨rfl, rfl⟩ := List.cons.inj (hencode'.symm.trans hencode)
  have hle := utf8CharLen_le d
  have ht : space ∉ u := fun hmem => absurd (hcont space hmem) (by decide)
  have hdt : space ∉ d :: u := by
    rw [List.mem_cons, not_or]
    exact ⟨(ne_space_of_not_ascii hc).symm, ht⟩
  have hchar := validUtf8_encode ch
  rw [hencode'] at hchar
  have hbehind := length_behind_le b.line
  constructor
  · rintro (hfull | hfits)
    · -- the line is printed before the character
      have hspace : space ∉ b.line := by
        intro hmem
        have hkept := h.holds.length_kept
        rw [behind, if_pos hmem] at hfull
        unfold maxLine at *
        omega
      have hline := appendByte_full (Nat.le_trans hfull hbehind) hspace d
      have hd : space ∉ [d] := by
        rw [List.mem_singleton]
        exact (ne_space_of_not_ascii hc).symm
      obtain ⟨hend, ⟨a, ha, hvalid⟩, hlines⟩ := bytewise_whole ht (h.holds.appendByte d)
        (a := []) hline .nil hd (by
          rw [hline, behind_of_notMem hd, List.length_singleton]
          unfold maxLine
          omega)
      rw [execAll_bytewise, linesAll_bytewise, List.forall_mem_append]
      refine ⟨⟨hend, ?_⟩, validUtf8_roomLines h.valid 1, hlines⟩
      rw [ha]
      exact hvalid.append hchar
    · obtain ⟨hend, ⟨a, ha, hvalid⟩, hlines⟩ := bytewise_whole (u := []) hdt h.holds
        (List.append_nil _).symm h.valid List.not_mem_nil (by
          rw [List.length_cons, ← hlen]
          exact hfits)
      refine ⟨⟨hend, ?_⟩, hlines⟩
      rw [ha]
      exact hvalid.append hchar
  · intro htorn
    obtain ⟨hshort, hover⟩ := not_or.mp htorn
    rcases h.holds.next_byte (u := []) (List.append_nil _).symm List.not_mem_nil
        (x := d) (ne_space_of_not_ascii hc).symm with
      ⟨a, hnext, hbehind', hle', -⟩ | ⟨hspace, hfull, -⟩
    -- the first byte is on the line, and the others do not all follow it there
    · obtain ⟨l, hl, hinvalid⟩ := bytewise_torn ht (h.holds.appendByte d) hnext
        (by rw [List.mem_singleton]; exact (ne_space_of_not_ascii hc).symm)
        (by rw [hlen, List.length_nil, Nat.zero_add]) hle'
        (by rw [hbehind', List.length_append, List.length_singleton]; omega)
      refine ⟨l, ?_, hinvalid⟩
      rw [linesAll_bytewise]
      exact List.mem_append_right _ hl
    -- a full line without a space would have been printed whole
    · rw [behind_of_notMem hspace] at hshort
      exact absurd hfull hshort

/-! ## 5. Calls that print text -/

/-- Every character whose bytes are appended one by one stays whole. -/
def AllStayWhole : List Cmd → LineBuf → Prop
  | [], _ => True
  | .byte c :: cs, b => (¬ c < 0x80 → StaysWhole c b.line) ∧ AllStayWhole cs (exec (.byte c) b)
  | c :: cs, b => AllStayWhole cs (exec c b)

/-- From a clean line these calls print text exactly if all characters stay whole. -/
def TextIffWhole (cs : List Cmd) : Prop :=
  ∀ b, Clean b →
    (AllStayWhole cs b → Clean (execAll cs b) ∧ ∀ l ∈ linesAll cs b, ValidUtf8 l) ∧
    (¬ AllStayWhole cs b → ∃ l ∈ linesAll cs b, ¬ ValidUtf8 l)

theorem allStayWhole_append (cs ds : List Cmd) (b : LineBuf) :
    AllStayWhole (cs ++ ds) b ↔ AllStayWhole cs b ∧ AllStayWhole ds (execAll cs b) := by
  induction cs generalizing b with
  | nil => exact iff_and_self.mpr fun _ => trivial
  | cons c cs ih =>
    cases c with
    | byte c =>
      show (_ ∧ AllStayWhole (cs ++ ds) (exec (.byte c) b)) ↔
        (_ ∧ AllStayWhole cs (exec (.byte c) b)) ∧ AllStayWhole ds (execAll cs (exec (.byte c) b))
      rw [ih, and_assoc]
    | _ => exact ih _

theorem allStayWhole_bytewise (t : List UInt8) (b : LineBuf) : AllStayWhole (bytewise t) b := by
  induction t generalizing b with
  | nil => trivial
  | cons x t ih => exact ih _

theorem TextIffWhole.nil : TextIffWhole [] :=
  fun _ hb => ⟨fun _ => ⟨hb, List.forall_mem_nil _⟩, fun h => absurd trivial h⟩

theorem TextIffWhole.append {cs ds : List Cmd} (h : TextIffWhole cs) (h' : TextIffWhole ds) :
    TextIffWhole (cs ++ ds) := by
  intro b hb
  obtain ⟨hwhole, htorn⟩ := h b hb
  rw [allStayWhole_append, execAll_append, linesAll_append]
  by_cases hcs : AllStayWhole cs b
  · obtain ⟨hmid, hlines⟩ := hwhole hcs
    obtain ⟨hwhole', htorn'⟩ := h' _ hmid
    refine ⟨fun hboth => ?_, fun hnot => ?_⟩
    · obtain ⟨hend, hlines'⟩ := hwhole' hboth.2
      exact ⟨hend, List.forall_mem_append.mpr ⟨hlines, hlines'⟩⟩
    · obtain ⟨l, hl, hinvalid⟩ := htorn' fun hds => hnot ⟨hcs, hds⟩
      exact ⟨l, List.mem_append_right _ hl, hinvalid⟩
  -- what has been torn is printed, whatever follows
  · refine ⟨fun hboth => absurd hboth.1 hcs, fun _ => ?_⟩
    obtain ⟨l, hl, hinvalid⟩ := htorn hcs
    exact ⟨l, List.mem_append_left _ hl, hinvalid⟩

theorem KeepsClean.textIffWhole {cs : List Cmd} (h : KeepsClean cs)
    (hcs : ∀ c, .byte c ∈ cs → c < 0x80) : TextIffWhole cs := by
  have hwhole : ∀ b, AllStayWhole cs b := by
    clear h
    induction cs with
    | nil => exact fun _ => trivial
    | cons c cs ih =>
      intro b
      have ih := ih fun c hc => hcs c (List.mem_cons_of_mem _ hc)
      cases c with
      | byte c => exact ⟨fun hc => absurd (hcs c List.mem_cons_self) hc, ih _⟩
      | _ => exact ih _
  exact fun b hb => ⟨fun _ => h b hb, fun hnot => absurd (hwhole b) hnot⟩

/-- A character of which the first byte comes by a call of its own. -/
theorem textIffWhole_bytewise {ch : Char} {c : UInt8} {t : List UInt8}
    (hencode : String.utf8EncodeChar ch = c :: t) (hc : ¬ c < 0x80) :
    TextIffWhole (.byte c :: bytewise t) := by
  intro b hb
  have hwhole : AllStayWhole (.byte c :: bytewise t) b ↔ StaysWhole c b.line :=
    ⟨fun h => h.1 hc, fun h => ⟨fun _ => h, allStayWhole_bytewise t _⟩⟩
  have hlines : linesAll (.byte c :: bytewise t) b = linesAll (bytewise (c :: t)) b := by
    rw [linesAll_bytewise]
    rfl
  have hexec : execAll (.byte c :: bytewise t) b = execAll (bytewise (c :: t)) b := by
    rw [execAll_bytewise]
    rfl
  rw [hwhole, hlines, hexec]
  exact hb.bytewise hencode hc

end LineBuf
