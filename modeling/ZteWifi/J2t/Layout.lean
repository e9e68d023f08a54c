import ZteWifi.J2t.Agreement
import ZteWifi.J2t.Completeness
import ZteWifi.Text.Fitting

/-!
# The layout of a value

What the converter is for: a value is shown as indented lines, one for each member or element, with
nested containers below the line of their key or dash.  `Cst.layout` says so without the line
buffer.  On a text without white space whose lines have room the output is that layout, but for a
key that fills its line: the space that is written behind it breaks the line at its indentation.
-/

open Ascii LineBuf

namespace J2t

/-! ## 1. The text of a string -/

/-- What one character or escape shows. -/
inductive Glyph
  | gap
  | bytes (bs : List UInt8)

def Glyph.add (line : Line) : Glyph → Line
  | gap => addSpace line
  | bytes bs => line ++ bs

/-- A code point in UTF-8. -/
def Glyph.char (cp : Nat) : Glyph := .bytes (String.utf8EncodeChar (Char.ofNat cp))

def escapeGlyphs (c : UInt8) : List Glyph :=
  if c = 0x62 then [.bytes [0x08]]
  else if c = 0x66 then [.bytes [0x0C]]
  else if c = 0x6E ∨ c = 0x74 then [.gap]
  else if c = 0x72 then []
  else [.bytes [c]]

namespace Str

/-- The decoded string; `pending` is the high surrogate escape that stands right before it. -/
def decodeAfter (pending : Option Nat) : Str → List Glyph
  | [] => []
  | .escape c _ :: s => escapeGlyphs c ++ decodeAfter none s
  | .ascii c _ :: s => (if c < 0x20 then .gap else .bytes [c]) :: decodeAfter none s
  | .multi c cont _ :: s => .bytes (c :: cont) :: decodeAfter none s
  | .unicode digits _ :: s =>
    let v := hexValue digits
    if Trace.isHighSurrogate v then decodeAfter (some v) s
    else if Trace.isLowSurrogate v then
      match pending with
      | some hi => .char (0x10000 + (hi - 0xD800) * 0x400 + (v - 0xDC00)) :: decodeAfter none s
      | none => decodeAfter none s
    else .char v :: decodeAfter none s

/-- The line with the text of the string behind it. -/
def text (line : Line) (s : Str) : Line := (s.decodeAfter none).foldl Glyph.add line

end Str

/-! ## 2. Rows -/

/-- A line before its trailing spaces are removed.  A header has only a key or a dash. -/
structure Row where
  text : Line
  header : Bool

/-- What is written of a row.  Behind a header stands a space before its container is seen. -/
def Row.written (r : Row) : List UInt8 :=
  if r.header then printLabel r.text else printLine r.text

/-- The row is not broken: it has room, and a header also for the space that is written behind it
before the container is seen.  A full header without any space is not broken either. -/
def Row.Fits (r : Row) : Prop :=
  r.text.length ≤ maxLine ∧ (r.header = true → r.text.length = maxLine → space ∉ r.text)

instance (r : Row) : Decidable r.Fits := inferInstanceAs (Decidable (_ ∧ _))

def printRows (rows : List Row) : List UInt8 := rows.flatMap fun r => printLine r.text

def indentation (depth : Nat) : Line := List.replicate (min (2 * depth) 40) space

namespace Cst

/-- The line with a scalar behind it. -/
def text (line : Line) : Cst .value → Line
  | string s => s.text line
  | literal l => line ++ l.bytes
  | number n => line ++ n.bytes
  | _ => line

/-- A key or a dash with its value, which has the given rows if it is a container. -/
def entry (label : Line) (v : Cst .value) (rows : List Row) : List Row :=
  if v.isContainer then ⟨label, true⟩ :: rows else [⟨v.text (label ++ [space]), false⟩]

/-- The rows of a container; a scalar has none of its own. -/
def layout {p : Part} : Cst p → Nat → List Row
  | emptyObject _, _ | emptyArray _, _ => []
  | object ms, depth => ms.layout depth
  | array _ es, depth => es.layout depth
  | string _, _ | literal _, _ | number _, _ => []
  | lastMember k v _, depth =>
    entry (k.name.text (indentation depth) ++ [colon]) v (v.layout (depth + 1))
  | member k v _ ms, depth =>
    entry (k.name.text (indentation depth) ++ [colon]) v (v.layout (depth + 1)) ++ ms.layout depth
  | lastElement v _, depth => entry (indentation depth ++ [minus]) v (v.layout (depth + 1))
  | element v _ _ es, depth =>
    entry (indentation depth ++ [minus]) v (v.layout (depth + 1)) ++ es.layout depth

/-- The rows of a whole text. -/
def rows (v : Cst .value) : List Row :=
  if v.isContainer then v.layout 0 else [⟨v.text [], false⟩]

end Cst

def Key.Compact (k : Key) : Prop := k.before.bytes = [] ∧ k.after.bytes = [] ∧ k.gap.bytes = []

/-- There is no white space between the tokens. -/
def Cst.Compact {p : Part} : Cst p → Prop
  | emptyObject w | emptyArray w => w.bytes = []
  | object ms => ms.Compact
  | array w es => w.bytes = [] ∧ es.Compact
  | string _ | literal _ | number _ => True
  | lastMember k v w => k.Compact ∧ v.Compact ∧ w.bytes = []
  | member k v w ms => k.Compact ∧ v.Compact ∧ w.bytes = [] ∧ ms.Compact
  | lastElement v w => v.Compact ∧ w.bytes = []
  | element v w gap es => v.Compact ∧ w.bytes = [] ∧ gap.bytes = [] ∧ es.Compact

/-! ## 3. Commands that show text -/

theorem Glyph.length_le_add (line : Line) (g : Glyph) : line.length ≤ (g.add line).length := by
  cases g with
  | gap => exact length_le_addSpace line
  | bytes bs =>
    rw [add, List.length_append]
    omega

theorem Glyph.length_le_foldl (line : Line) (gs : List Glyph) :
    line.length ≤ (gs.foldl add line).length := by
  induction gs generalizing line with
  | nil => exact Nat.le_refl _
  | cons g gs ih => exact Nat.le_trans (length_le_add line g) (ih _)

/-- On a line with room the commands show the glyphs. -/
def Shows (cs : List Cmd) (gs : List Glyph) : Prop :=
  ∀ (line : Line) (tr : Bool) (out : List UInt8), (gs.foldl Glyph.add line).length ≤ maxLine →
    execAll cs ⟨line, tr, out⟩ = ⟨gs.foldl Glyph.add line, tr, out⟩

theorem Shows.nil : Shows [] [] := fun _ _ _ _ => rfl

theorem Shows.append {cs ds : List Cmd} {gs hs : List Glyph} (h : Shows cs gs) (h' : Shows ds hs) :
    Shows (cs ++ ds) (gs ++ hs) := by
  intro line tr out hlen
  rw [List.foldl_append] at hlen
  have hfirst := Nat.le_trans (Glyph.length_le_foldl _ hs) hlen
  rw [execAll_append, h line tr out hfirst, h' _ tr out hlen, List.foldl_append]

theorem shows_space : Shows [.space] [.gap] := fun _ _ _ hlen => appendSpace_fits hlen

theorem shows_byte (c : UInt8) : Shows [.byte c] [.bytes [c]] := by
  intro line tr out hlen
  rw [List.foldl_cons, List.foldl_nil, Glyph.add, List.length_append, List.length_singleton] at hlen
  exact appendByte_fits hlen

theorem shows_bytes (bs : List UInt8) : Shows (bs.map .byte) [.bytes bs] := by
  induction bs with
  | nil =>
    intro line tr out _
    simp only [List.map_nil, execAll_nil, List.foldl_cons, List.foldl_nil, Glyph.add,
      List.append_nil]
  | cons b bs ih =>
    intro line tr out hlen
    have h := (shows_byte b).append ih line tr out
    simp only [List.foldl_cons, List.foldl_nil, Glyph.add, List.append_assoc,
      List.singleton_append] at h hlen ⊢
    exact h hlen

theorem shows_char {c : UInt8} {cont : List UInt8} (h : cont.length = utf8CharLen c - 1) :
    Shows (Trace.charCmds c cont) [.bytes (c :: cont)] := by
  intro line tr out hlen
  have hpos := utf8CharLen_pos c
  simp only [List.foldl_cons, List.foldl_nil, Glyph.add, List.length_append, List.length_cons]
    at hlen
  change execAll (cont.map .raw) (appendByteNc c (reserve (utf8CharLen c) ⟨line, tr, out⟩)) =
    ⟨line ++ c :: cont, tr, out⟩
  rw [reserve_fits (by omega), appendByteNc_fits (by omega), execAll_map_raw,
    appendAllNc_fits (by rw [List.length_append, List.length_singleton]; omega), List.append_assoc,
    List.singleton_append]

theorem shows_utf8 {cp : Nat} (h : cp.isValidChar) : Shows [.utf8 cp] [.char cp] := by
  intro line tr out hlen
  have hchar : (Char.ofNat cp).toNat = cp := by
    rw [Char.ofNat, dif_pos h]
    rfl
  have hbytes : String.utf8EncodeChar (Char.ofNat cp) = utf8Bytes cp := by
    rw [← utf8Bytes_eq, hchar]
  simp only [List.foldl_cons, List.foldl_nil, Glyph.add, Glyph.char, hbytes, List.length_append]
    at hlen ⊢
  exact appendUtf8_fits hlen

theorem shows_escape (c : UInt8) : Shows (Trace.escapeCmds c) (escapeGlyphs c) := by
  rw [Trace.escapeCmds, escapeGlyphs]
  split
  · exact shows_byte _
  split
  · exact shows_byte _
  split
  · exact shows_space
  split
  · exact .nil
  · exact shows_byte _

theorem hexValue_lt {ds : List UInt8} (h : ds.length = 4) : hexValue ds < 0x10000 := by
  have hdigit : ∀ c, (hexDigit c).getD 0 < 16 := by
    intro c
    cases hc : hexDigit c with
    | none => decide
    | some d => exact hexDigit_lt hc
  have hfold : ∀ (ds : List UInt8) (v : Nat),
      ds.foldl (fun v c => v * 16 + (hexDigit c).getD 0) v < (v + 1) * 16 ^ ds.length := by
    intro ds
    induction ds with
    | nil => intro v; simp
    | cons c ds ih =>
      intro v
      have hstep : v * 16 + (hexDigit c).getD 0 + 1 ≤ (v + 1) * 16 := by
        have hc := hdigit c
        omega
      refine Nat.lt_of_lt_of_le (ih _) ?_
      rw [List.length_cons, Nat.pow_succ', ← Nat.mul_assoc]
      exact Nat.mul_le_mul_right _ hstep
  have hlt := hfold ds 0
  rwa [h] at hlt

theorem shows_cmdsAfter (s : Str) (pending : Option Nat)
    (hpending : ∀ hi ∈ pending, Trace.isHighSurrogate hi) :
    Shows (Str.cmdsAfter pending s) (Str.decodeAfter pending s) := by
  induction s generalizing pending with
  | nil => exact .nil
  | cons i s ih =>
    have ih' := ih none nofun
    cases i with
    | escape c h => exact (shows_escape c).append ih'
    | ascii c h =>
      rw [Str.cmdsAfter, Str.decodeAfter]
      split
      · exact shows_space.append ih'
      · exact (shows_byte c).append ih'
    | multi c cont h => exact (shows_char h.2).append ih'
    | unicode ds h =>
      simp only [Str.cmdsAfter, Str.decodeAfter]
      have hlt := hexValue_lt h.1
      split
      · next hhi => exact ih _ fun hi heq => Option.some.inj heq ▸ hhi
      · next hhi =>
        split
        · next hlo =>
          cases pending with
          | none => exact ih'
          | some hi =>
            have hhigh := hpending hi rfl
            have hvalid := Trace.surrogatePair_valid hhigh hlo
            simp only [Trace.surrogatePair_eq] at hvalid ⊢
            exact (shows_utf8 hvalid).append ih'
        · next hlo =>
          refine (shows_utf8 ?_).append ih'
          unfold Nat.isValidChar
          omega

theorem exec_string (s : Str) {line : Line} (h : (s.text line).length ≤ maxLine) (tr : Bool)
    (out : List UInt8) : execAll s.cmds ⟨line, tr, out⟩ = ⟨s.text line, tr, out⟩ :=
  shows_cmdsAfter s none nofun line tr out h

/-! ## 4. Commands that print rows -/

theorem Cst.length_le_text (line : Line) (v : Cst .value) :
    line.length ≤ (v.text line).length := by
  cases v with
  | string s => exact Glyph.length_le_foldl line _
  | literal | number =>
    rw [text, List.length_append]
    omega
  | emptyObject | object | emptyArray | array => exact Nat.le_refl _

theorem exec_scalar {v : Cst .value} (hv : v.isContainer = false) {line : Line}
    (h : (v.text line).length ≤ maxLine) (depth : Nat) (tr : Bool) (out : List UInt8) :
    execAll (v.cmds false depth) ⟨line, tr, out⟩ = ⟨v.text line, tr, out⟩ := by
  cases v with
  | string s => exact exec_string s h tr out
  | literal l =>
    have hascii : ∀ c ∈ l.bytes, c < 0x80 := by cases l <;> decide +kernel
    rw [Cst.text, List.length_append] at h
    change appendStr l.bytes ⟨line, tr, out⟩ = ⟨line ++ l.bytes, tr, out⟩
    exact appendStr_fits hascii h
  | number n => exact shows_bytes n.bytes line tr out h
  | emptyObject | object | emptyArray | array => cases hv

/-- From an empty line the commands write the rows, if these have room. -/
def Prints (cs : List Cmd) (rows : List Row) : Prop :=
  (∀ r ∈ rows, r.text.length ≤ maxLine) → ∀ (tr : Bool) (out : List UInt8),
    execAll cs ⟨[], tr, out⟩ = ⟨[], tr, out ++ rows.flatMap Row.written⟩

theorem Prints.nil : Prints [] [] := by
  intro _ tr out
  rw [execAll_nil, List.flatMap_nil, List.append_nil]

theorem Prints.append {cs ds : List Cmd} {rows rows' : List Row} (h : Prints cs rows)
    (h' : Prints ds rows') : Prints (cs ++ ds) (rows ++ rows') := by
  intro hroom tr out
  rw [execAll_append, h (fun r hr => hroom r (List.mem_append_left _ hr)),
    h' (fun r hr => hroom r (List.mem_append_right _ hr)), List.flatMap_append, List.append_assoc]

theorem indentWidth_eq (depth : Nat) : indentWidth depth = min (2 * depth) 40 := by
  simp only [indentWidth, maxLine]
  split <;> omega

theorem prints_entry (name : Str) {c : UInt8} (hc : c < 0x80 ∧ c ≠ space) {v : Cst .value}
    (hv : v.isContainer = true → ∀ depth, Prints (v.cmds false depth) (v.layout depth))
    (depth : Nat) :
    Prints
      (.indent depth :: (name.cmds ++ .str [c, space] ::
        Cst.childCmds v.isContainer depth (v.cmds false)))
      (Cst.entry (name.text (indentation depth) ++ [c]) v (v.layout (depth + 1))) := by
  intro hwidth tr out
  have hindent : execAll [.indent depth] ⟨[], tr, out⟩ = ⟨indentation depth, tr, out⟩ := by
    rw [indentation, ← indentWidth_eq]
    exact outputIndent_nil depth
  have hlabel : (name.text (indentation depth)).length ≤ maxLine →
      execAll (.indent depth :: name.cmds) ⟨[], tr, out⟩ =
        ⟨name.text (indentation depth), tr, out⟩ := by
    intro hlen
    rw [← List.singleton_append, execAll_append, hindent, exec_string name hlen]
  rw [← List.cons_append, execAll_append, execAll_cons]
  cases hcon : v.isContainer with
  | true =>
    simp only [Cst.entry, hcon, if_true, Cst.childCmds] at hwidth ⊢
    have hlen := hwidth _ List.mem_cons_self
    simp only [List.length_append, List.length_singleton] at hlen
    have hrows := hv hcon (depth + 1) fun r hr => hwidth r (List.mem_cons_of_mem _ hr)
    rw [hlabel (by omega), execAll_cons]
    change execAll _ (flushLine (appendStr [c, space] _)) = _
    rw [label_line hc (by omega), hrows, List.flatMap_cons, Row.written, if_pos rfl,
      List.append_assoc]
  | false =>
    simp only [Cst.entry, hcon, Bool.false_eq_true, if_false, Cst.childCmds] at hwidth ⊢
    have hlen := hwidth _ List.mem_cons_self
    have hroom := Nat.le_trans (Cst.length_le_text _ v) hlen
    have hascii : ∀ b ∈ [c, space], b < 0x80 := by
      rw [List.forall_mem_cons, List.forall_mem_singleton]
      exact ⟨hc.1, by decide⟩
    simp only [List.append_assoc, List.singleton_append] at hlen hroom ⊢
    rw [List.length_append] at hroom
    rw [hlabel (by omega), exec, appendStr_fits hascii hroom, execAll_append,
      exec_scalar hcon hlen, List.flatMap_cons, List.flatMap_nil, List.append_nil, Row.written,
      if_neg Bool.false_ne_true]
    exact flushLine_eq _ tr out

/-- A compact container writes the rows of its layout, and so do its members or elements. -/
theorem prints_cst {p : Part} (t : Cst p) (hcompact : t.Compact)
    (ht : p = .value → t.isContainer = true) (depth : Nat) :
    Prints (t.cmds false depth) (t.layout depth) := by
  induction t generalizing depth with
  | emptyObject | emptyArray => exact .nil
  | object ms ih => exact ih hcompact nofun depth
  | array w es ih => exact ih hcompact.2 nofun depth
  | string | literal | number => cases ht rfl
  | lastMember k v w ih =>
    exact prints_entry k.name (by decide) (fun hcon => ih hcompact.2.1 fun _ => hcon) depth
  | member k v w ms ihv ihms =>
    obtain ⟨-, hv, -, hms⟩ := hcompact
    have hentry := prints_entry k.name (c := colon) (by decide)
      (fun hcon => ihv hv fun _ => hcon) depth
    have h := hentry.append (ihms hms nofun depth)
    rwa [List.cons_append, List.append_assoc, List.cons_append] at h
  | lastElement v w ih =>
    have hentry := prints_entry [] (c := minus) (by decide)
      (fun hcon => ih hcompact.1 fun _ => hcon) depth
    simp only [Cst.cmds, Bool.not_false, Bool.and_true]
    exact hentry
  | element v w gap es ihv ihes =>
    obtain ⟨hv, -, hgap, hes⟩ := hcompact
    have hentry := prints_entry [] (c := minus) (by decide) (fun hcon => ihv hv fun _ => hcon) depth
    have h := hentry.append (ihes hes nofun depth)
    simp only [Cst.cmds, hgap, List.isEmpty_nil, Bool.not_true, Bool.not_false, Bool.and_true]
    exact h

/-! ## 5. Headers -/

/-- A header ends in the mark of its label. -/
def Row.Marked (r : Row) : Prop :=
  r.header = true → ∃ (l : Line) (c : UInt8), r.text = l ++ [c] ∧ c ≠ space

theorem Cst.marked_entry {label : Line} {c : UInt8} (hc : c ≠ space) (v : Cst .value)
    {rows : List Row} (hrows : ∀ r ∈ rows, r.Marked) :
    ∀ r ∈ entry (label ++ [c]) v rows, r.Marked := by
  rw [entry]
  split
  · exact List.forall_mem_cons.mpr ⟨fun _ => ⟨label, c, rfl, hc⟩, hrows⟩
  · exact List.forall_mem_singleton.mpr fun h => absurd h Bool.false_ne_true

theorem Cst.marked_layout {p : Part} (t : Cst p) (depth : Nat) :
    ∀ r ∈ t.layout depth, r.Marked := by
  induction t generalizing depth with
  | emptyObject | emptyArray | string | literal | number => exact List.forall_mem_nil _
  | object ms ih => exact ih depth
  | array w es ih => exact ih depth
  | lastMember k v w ih => exact marked_entry (by decide) v (ih (depth + 1))
  | member k v w ms ihv ihms =>
    exact List.forall_mem_append.mpr ⟨marked_entry (by decide) v (ihv (depth + 1)), ihms depth⟩
  | lastElement v w ih => exact marked_entry (by decide) v (ih (depth + 1))
  | element v w gap es ihv ihes =>
    exact List.forall_mem_append.mpr ⟨marked_entry (by decide) v (ihv (depth + 1)), ihes depth⟩

theorem Cst.marked_rows (v : Cst .value) : ∀ r ∈ v.rows, r.Marked := by
  rw [rows]
  split
  · exact marked_layout v 0
  · exact List.forall_mem_singleton.mpr fun h => absurd h Bool.false_ne_true

theorem Row.Marked.length_written_le {r : Row} (hr : r.Marked) :
    r.written.length ≤ (printLine r.text).length := by
  rw [written]
  split
  · next hheader =>
    obtain ⟨l, c, htext, hc⟩ := hr hheader
    rw [htext]
    exact length_printLabel_le l hc
  · exact Nat.le_refl _

/-- A row is printed as it is unless it is a full header with a space. -/
theorem Row.Marked.written_eq_iff {r : Row} (hr : r.Marked) :
    r.written = printLine r.text ↔
      (r.header = true → r.text.length = maxLine → space ∉ r.text) := by
  rw [written]
  split
  · next hheader =>
    obtain ⟨l, c, htext, hc⟩ := hr hheader
    rw [htext, printLabel_eq_iff l hc]
    exact ⟨fun h _ => h, fun h => h hheader⟩
  · next hheader => exact ⟨fun _ h => absurd h hheader, fun _ => rfl⟩

section
variable {α β : Type} {f g : α → List β} {l : List α}

theorem length_flatMap_le (hle : ∀ a ∈ l, (f a).length ≤ (g a).length) :
    (l.flatMap f).length ≤ (l.flatMap g).length := by
  induction l with
  | nil => exact Nat.le_refl _
  | cons a l ih =>
    rw [List.forall_mem_cons] at hle
    rw [List.flatMap_cons, List.flatMap_cons, List.length_append, List.length_append]
    exact Nat.add_le_add hle.1 (ih hle.2)

/-- Pieces that are no longer than others make up the same list only when each is the same. -/
theorem flatMap_eq_iff_of_length_le (hle : ∀ a ∈ l, (f a).length ≤ (g a).length) :
    l.flatMap f = l.flatMap g ↔ ∀ a ∈ l, f a = g a := by
  induction l with
  | nil => exact ⟨fun _ => List.forall_mem_nil _, fun _ => rfl⟩
  | cons a l ih =>
    rw [List.forall_mem_cons] at hle ⊢
    rw [List.flatMap_cons, List.flatMap_cons]
    refine ⟨fun heq => ?_, fun h => by rw [h.1, (ih hle.2).mpr h.2]⟩
    -- neither the first piece nor the rest can make up for the length of the other
    have htail := length_flatMap_le hle.2
    have hlen := congrArg List.length heq
    rw [List.length_append, List.length_append] at hlen
    have hsame := List.append_inj heq (Nat.le_antisymm hle.1 (by omega))
    exact ⟨hsame.1, (ih hle.2).mp hsame.2⟩

end

/-! ## 6. The output -/

/-- What is written of a value that nests no deeper than the limit, without white space, whose rows
have room. -/
theorem main_written (v : Cst .value) (hcompact : v.Compact) (hnest : v.nest ≤ maxDepth + 1)
    (hwidth : ∀ r ∈ v.rows, r.text.length ≤ maxLine) :
    ∃ e, Stream.main v.bytes = some e ∧ e.stdout = v.rows.flatMap Row.written := by
  have hweight : v.weight false ≤ maxDepth + 1 :=
    Nat.le_trans (Nat.le_trans (v.weight_le_nest false) (Nat.le_of_eq (Nat.add_zero _))) hnest
  have hrun := Trace.run_text ⟨.none, v, .none⟩ hweight
  have hbytes : Text.bytes ⟨.none, v, .none⟩ = v.bytes := List.append_nil _
  rw [hbytes] at hrun
  obtain ⟨e, he, hout, -⟩ := Stream.main_outcome hrun
  refine ⟨e, he, (congrArg Outcome.stdout hout).trans ?_⟩
  change (execAll (v.cmds false 0 ++ [.flush]) ⟨[], false, []⟩).stdout = _
  rw [execAll_append]
  cases hcon : v.isContainer with
  | true =>
    rw [Cst.rows, if_pos hcon] at hwidth ⊢
    rw [prints_cst v hcompact (fun _ => hcon) 0 hwidth]
    rfl
  | false =>
    simp only [Cst.rows, hcon, Bool.false_eq_true, if_false] at hwidth ⊢
    rw [exec_scalar hcon (hwidth _ List.mem_cons_self), List.flatMap_cons, List.flatMap_nil,
      List.append_nil, Row.written, if_neg Bool.false_ne_true]
    change (flushLine _).stdout = _
    rw [flushLine_eq, List.nil_append]

/-- The value is shown in its layout if no row has to be broken. -/
theorem main_layout (v : Cst .value) (hcompact : v.Compact) (hnest : v.nest ≤ maxDepth + 1)
    (hfits : ∀ r ∈ v.rows, r.Fits) :
    ∃ e, Stream.main v.bytes = some e ∧ e.stdout = printRows v.rows := by
  obtain ⟨e, he, hout⟩ := main_written v hcompact hnest fun r hr => (hfits r hr).1
  refine ⟨e, he, hout.trans ?_⟩
  have hle := fun r hr => (v.marked_rows r hr).length_written_le
  exact (flatMap_eq_iff_of_length_le hle).mpr fun r hr =>
    (v.marked_rows r hr).written_eq_iff.mpr (hfits r hr).2

/-- A value whose rows have room is shown in its layout exactly when no header that fills its line
holds a space. -/
theorem main_layout_iff (v : Cst .value) (hcompact : v.Compact) (hnest : v.nest ≤ maxDepth + 1)
    (hwidth : ∀ r ∈ v.rows, r.text.length ≤ maxLine) :
    (∃ e, Stream.main v.bytes = some e ∧ e.stdout = printRows v.rows) ↔
      ∀ r ∈ v.rows, r.header = true → r.text.length = maxLine → space ∉ r.text := by
  constructor
  · rintro ⟨e, he, hlayout⟩
    obtain ⟨e', he', hwritten⟩ := main_written v hcompact hnest hwidth
    cases he.symm.trans he'
    have hsame : v.rows.flatMap Row.written = printRows v.rows := hwritten.symm.trans hlayout
    -- a broken row is no longer than in the layout, so that no row makes up for another
    have hle := fun r hr => (v.marked_rows r hr).length_written_le
    intro r hr
    exact (v.marked_rows r hr).written_eq_iff.mp ((flatMap_eq_iff_of_length_le hle).mp hsame r hr)
  · exact fun hfull => main_layout v hcompact hnest fun r hr => ⟨hwidth r hr, hfull r hr⟩

/-- A key without escapes and without white space around it. -/
def plainKey (c : UInt8) (h : c < 0x80 ∧ c ≠ quote ∧ c ≠ backslash) (n : Nat) : Key :=
  ⟨.none, List.replicate n (.ascii c h), .none, .none⟩

/-- `[1,[2]]` -/
theorem main_layout_nested : ∃ e,
    Stream.main [0x5B, 0x31, 0x2C, 0x5B, 0x32, 0x5D, 0x5D] = some e ∧
      e.stdout = Ascii.bytes "- 1\n-\n  - 2\n" := by
  have hrows : Ascii.bytes "- 1\n-\n  - 2\n" =
      printRows [⟨[0x2D, 0x20, 0x31], false⟩, ⟨[0x2D], true⟩,
        ⟨[0x20, 0x20, 0x2D, 0x20, 0x32], false⟩] := by
    decide +kernel
  rw [hrows]
  refine (main_layout_iff (.array .none (.element (.number ⟨0x31, [], .inl rfl, rfl⟩) .none .none
    (.lastElement (.array .none (.lastElement (.number ⟨0x32, [], .inl rfl, rfl⟩) .none)) .none)))
    ⟨rfl, trivial, rfl, rfl, ⟨rfl, trivial, rfl⟩, rfl⟩ (by decide) ?_).mpr ?_
  · decide +kernel
  · decide +kernel

/-- The object `{"a":{"kk...k":{}}}` whose inner key has 77 bytes. -/
def wideKey : Cst .value :=
  .object (.lastMember (plainKey 0x61 (by decide) 1)
    (.object (.lastMember (plainKey 0x6B (by decide) 77) (.emptyObject .none) .none)) .none)

/-- A header that fills the line is broken at its indentation. -/
theorem not_main_layout_wideKey :
    ¬ ∀ v : Cst .value, v.Compact → v.nest ≤ maxDepth + 1 →
      (∀ r ∈ v.rows, r.text.length ≤ maxLine) →
      ∃ e, Stream.main v.bytes = some e ∧ e.stdout = printRows v.rows := by
  intro h
  have hcompact : wideKey.Compact := ⟨⟨rfl, rfl, rfl⟩, ⟨⟨rfl, rfl, rfl⟩, rfl, rfl⟩, rfl⟩
  obtain ⟨e, he, hout⟩ := h wideKey hcompact (by decide) (by decide +kernel)
  have hne : (Stream.main wideKey.bytes).map Exit.stdout ≠ some (printRows wideKey.rows) := by
    decide +kernel
  rw [he, Option.map_some, hout] at hne
  exact hne rfl

end J2t
