import ZteWifi.Text.Spaces
import ZteWifi.Text.Width

/-!
# Lines of spaces

`output_indent` puts its spaces on the line that `wrap_line` breaks at the last space.  When the
first word behind them finds no room, the line is broken within the indentation and nothing is left
of it: an empty line is written.  `flush_line` writes none.
-/

open Ascii

namespace LineBuf

/-! ## 1. Texts byte by byte -/

def Cmd.isStr : Cmd → Bool
  | .str _ => true
  | _ => false

/-- The call, or one for each byte of a text. -/
def Cmd.split : Cmd → List Cmd
  | .str s => s.map .byte
  | c => [c]

/-- All texts are ASCII. -/
def AsciiTexts (cs : List Cmd) : Prop := ∀ s, .str s ∈ cs → ∀ c ∈ s, c < 0x80

theorem str_split {s : List UInt8} (hs : ∀ c ∈ s, c < 0x80) (b : LineBuf) :
    execAll (s.map .byte) b = appendStrLoop 0 s b ∧
      linesAll (s.map .byte) b = strLines 0 s b := by
  induction s generalizing b with
  | nil => exact ⟨rfl, rfl⟩
  | cons c s ih =>
    obtain ⟨hc, hs⟩ := List.forall_mem_cons.mp hs
    obtain ⟨hexec, hlines⟩ := ih hs (appendByte c b)
    rw [appendStrLoop, strLines, if_pos hc, if_pos hc]
    exact ⟨hexec, congrArg (roomLines 1 b.line ++ ·) hlines⟩

theorem exec_split {c : Cmd} (hc : AsciiTexts [c]) (b : LineBuf) :
    execAll c.split b = exec c b ∧ linesAll c.split b = lines c b := by
  cases c with
  | str s => exact str_split (hc s List.mem_cons_self) b
  | _ => exact ⟨rfl, List.append_nil _⟩

/-- Texts may be appended byte by byte. -/
theorem linesAll_split {cs : List Cmd} (hcs : AsciiTexts cs) (b : LineBuf) :
    linesAll (cs.flatMap Cmd.split) b = linesAll cs b := by
  induction cs generalizing b with
  | nil => rfl
  | cons c cs ih =>
    obtain ⟨hexec, hlines⟩ := exec_split (c := c) (fun s hs => hcs s (by
      rw [List.mem_singleton.mp hs]
      exact List.mem_cons_self)) b
    rw [List.flatMap_cons, linesAll_append, hlines, hexec,
      ih fun s hs => hcs s (List.mem_cons_of_mem _ hs), linesAll]

theorem paced_bytes (k : Nat) (s : List UInt8) {cs : List Cmd} (h : Paced 0 cs) :
    Paced k (s.map .byte ++ cs) := by
  induction s generalizing k with
  | nil => exact h.mono (Nat.zero_le k)
  | cons c s ih => exact ⟨trivial, nofun, ih 0⟩

theorem Paced.split {k : Nat} {cs : List Cmd} (h : Paced k cs) :
    Paced k (cs.flatMap Cmd.split) := by
  induction cs generalizing k with
  | nil => trivial
  | cons c cs ih =>
    obtain ⟨hproper, hraw, hrest⟩ := h
    cases c with
    | str s => exact paced_bytes k s (ih hrest)
    | _ => exact ⟨hproper, hraw, ih hrest⟩

theorem isStr_of_mem_split {cs : List Cmd} : ∀ c ∈ cs.flatMap Cmd.split, c.isStr = false := by
  intro c hc
  obtain ⟨d, -, hd⟩ := List.mem_flatMap.mp hc
  cases d with
  | str s =>
    obtain ⟨x, -, rfl⟩ := List.mem_map.mp hd
    rfl
  | _ =>
    rw [List.mem_singleton.mp hd]
    rfl

/-! ## 2. What a call does to the line -/

/-- The call ends the line. -/
def Cmd.ends : Cmd → Bool
  | .indent _ | .flush => true
  | _ => false

/-- The ways in which a call changes the line `l`, with the lines it writes. -/
inductive Turn (c : Cmd) (l : Line) : Line → List Line → Prop
  | skip (hc : c = .space) (hl : l = [] ∨ l.getLast? = some space) : Turn c l l []
  | stay (hends : c.ends = false) (hroom : c.isRaw ∨ l.length + c.width ≤ maxLine)
      (hl : c = .space → l ≠ [] ∧ l.getLast? ≠ some space) : Turn c l (l ++ c.appended) []
  | wrap (hends : c.ends = false) (hfull : maxLine < l.length + c.width)
      (hl : c = .space → l ≠ [] ∧ l.getLast? ≠ some space) :
      Turn c l ((breakLine l).2 ++ c.appended) [(breakLine l).1]
  | ends (hc : c.ends = true) : Turn c l c.appended (flushLines l)

/-- Bytes appended behind a test for room. -/
theorem turn_reserve {c : Cmd} {b : LineBuf} (hb : Holds 0 b) (hends : c.ends = false)
    (hl : c = .space → b.line ≠ [] ∧ b.line.getLast? ≠ some space)
    (hwidth : c.appended.length ≤ c.width) (hle : c.width ≤ 4) :
    Turn c b.line (appendAllNc c.appended (reserve c.width b)).line (roomLines c.width b.line) := by
  have hkept := hb.length_kept
  unfold reserve roomLines
  by_cases hfull : b.line.length + c.width > maxLine
  · rw [if_pos hfull, if_pos hfull, wrapLine_eq, appendAllNc_eq]
    · exact .wrap hends hfull hl
    · show (breakLine b.line).2.length + _ ≤ _
      unfold maxLine at *
      omega
  · rw [if_neg hfull, if_neg hfull, appendAllNc_eq (by omega)]
    exact .stay hends (.inr (Nat.not_lt.mp hfull)) hl

theorem turn {k : Nat} {b : LineBuf} (hb : Holds k b) {c : Cmd} (hproper : c.Proper)
    (hraw : ∀ x, c = .raw x → k ≠ 0) (hstr : c.isStr = false) :
    Turn c b.line (exec c b).line (lines c b) := by
  have hb₀ := hb.mono (Nat.zero_le k)
  cases c with
  | byte c =>
    show Turn _ _ (appendByte c b).line _
    rw [appendByte_eq]
    exact turn_reserve (c := .byte c) hb₀ rfl nofun (Nat.le_refl 1) (width_le trivial)
  | raw c =>
    have hlen := hb.length_le
    have hk := hraw c rfl
    show Turn _ _ (appendByteNc c b).line []
    rw [appendByteNc_eq (by omega)]
    exact .stay rfl (.inl rfl) nofun
  | lead n c => exact turn_reserve hb₀ rfl nofun hproper.1 hproper.2.1
  | str s => cases hstr
  | space =>
    show Turn _ _ (appendSpace b).line (if _ then _ else _)
    unfold appendSpace
    by_cases hl : b.line ≠ [] ∧ b.line.getLast? ≠ some space
    · rw [if_pos hl, if_pos hl, appendByte_eq]
      exact turn_reserve (c := .space) hb₀ rfl (fun _ => hl) (Nat.le_refl 1) (width_le trivial)
    · rw [if_neg hl, if_neg hl]
      refine .skip rfl ?_
      by_contra hnot
      rw [not_or] at hnot
      exact hl hnot
  | utf8 cp =>
    exact turn_reserve (c := .utf8 cp) hb₀ rfl nofun (Nat.le_refl _)
      (width_le trivial)
  | indent d =>
    show Turn _ _ (outputIndent d b).line (flushLines b.line)
    rw [outputIndent_eq]
    exact .ends rfl
  | flush =>
    show Turn _ _ (flushLine b).line (flushLines b.line)
    rw [flushLine_line]
    exact .ends rfl

/-- A call appends one space, or bytes without a space. -/
theorem appended_cases {c : Cmd} (hends : c.ends = false) (hstr : c.isStr = false) :
    c.appended = [space] ∨ c.appended ≠ [] ∧ space ∉ c.appended := by
  have hbyte (x : UInt8) : [x] = [space] ∨ [x] ≠ [] ∧ space ∉ [x] := by
    by_cases hx : x = space
    · exact .inl (congrArg ([·]) hx)
    · exact .inr ⟨List.cons_ne_nil _ _, fun hmem => hx (List.mem_singleton.mp hmem).symm⟩
  cases c with
  | byte x => exact hbyte x
  | raw x => exact hbyte x
  | lead n x => exact hbyte x
  | str s => cases hstr
  | space => exact .inl rfl
  | utf8 cp =>
    show utf8Bytes cp = _ ∨ utf8Bytes cp ≠ [] ∧ space ∉ utf8Bytes cp
    by_cases hascii : cp < 0x80
    · rw [utf8Bytes_ascii hascii]
      exact hbyte _
    · obtain ⟨x, t, hbytes, -⟩ := utf8Bytes_cons cp
      refine .inr ⟨by rw [hbytes]; exact List.cons_ne_nil _ _, fun hmem => ?_⟩
      exact absurd (utf8Bytes_ge hascii _ hmem) (by decide)
  | indent d => cases hends
  | flush => cases hends

/-! ## 3. The first word of a line -/

/-- The room that is asked for on a line up to the end of a word, with the space that ends it. -/
def need : List Cmd → Nat
  | [] => 0
  | c :: cs =>
    if c.ends then 0
    else if space ∈ c.appended then c.width
    else max c.width (c.appended.length + need cs)

/-- The same where the word `u` has been begun; in front of it `append_space` does nothing. -/
def needBehind (u : Line) (cs : List Cmd) : Nat :=
  need (if u = [] then cs.dropWhile (· = .space) else cs)

/-- Wherever the line holds spaces only, the next word finds room behind them. -/
def FirstWordsFit (cs : List Cmd) (b : LineBuf) : Prop :=
  ∀ pre post k, cs = pre ++ post → (execAll pre b).line = List.replicate (k + 1) space →
    k + 1 + needBehind [] post ≤ maxLine

theorem FirstWordsFit.tail {c : Cmd} {cs : List Cmd} {b : LineBuf}
    (h : FirstWordsFit (c :: cs) b) : FirstWordsFit cs (exec c b) :=
  fun pre post k heq hline => h (c :: pre) post k (by rw [heq]; rfl) hline

/-- A line on which something can be seen. -/
def Visible (l : Line) : Prop := ∃ c ∈ l, c ≠ space

/-- Something stands before the last space. -/
def Anchored (l : Line) : Prop := ∃ p q, l = p ++ space :: q ∧ space ∉ q ∧ Visible p

/-- The line is spaces and the word `u`. -/
structure Indented (k : Nat) (u l : Line) : Prop where
  line : l = List.replicate (k + 1) space ++ u
  word : space ∉ u

theorem Indented.length {k : Nat} {u l : Line} (h : Indented k u l) :
    l.length = k + 1 + u.length := by
  rw [h.line, List.length_append, List.length_replicate]

/-- Nothing is printed of such a line when it is broken. -/
theorem Indented.breakLine {k : Nat} {u l : Line} (h : Indented k u l) :
    (breakLine l).1 = [] := by
  have hline : l = List.replicate k space ++ space :: u := by
    rw [h.line, List.replicate_succ', List.append_assoc]
    rfl
  rw [hline, breakLine_append h.word, List.rdropWhile_eq_nil_iff]
  intro c hc
  exact decide_eq_true (List.mem_replicate.mp hc).2

theorem needBehind_cons {u : Line} {c : Cmd} (hc : u = [] → c ≠ .space) (cs : List Cmd) :
    needBehind u (c :: cs) = need (c :: cs) := by
  rw [needBehind]
  by_cases hu : u = []
  · rw [if_pos hu, dropWhile_text (hc hu)]
  · rw [if_neg hu]

theorem need_space {c : Cmd} (hends : c.ends = false) (hspace : c.appended = [space])
    (cs : List Cmd) : need (c :: cs) = c.width := by
  rw [need, if_neg (Bool.eq_false_iff.mp hends), hspace, if_pos (List.mem_singleton.mpr rfl)]

theorem need_word {c : Cmd} (hends : c.ends = false) (hspace : space ∉ c.appended)
    (cs : List Cmd) : need (c :: cs) = max c.width (c.appended.length + need cs) := by
  rw [need, if_neg (Bool.eq_false_iff.mp hends), if_neg hspace]

theorem width_le_need {c : Cmd} (hends : c.ends = false) (cs : List Cmd) :
    c.width ≤ need (c :: cs) := by
  rw [need, if_neg (Bool.eq_false_iff.mp hends)]
  split
  · exact Nat.le_refl _
  · exact Nat.le_max_left _ _

theorem Indented.getLast? {k : Nat} {u l : Line} (h : Indented k u l) :
    l.getLast? = some space ↔ u = [] := by
  rw [h.line]
  constructor
  · intro hlast
    by_contra hu
    rw [List.getLast?_append_of_ne_nil _ hu] at hlast
    exact h.word (List.mem_of_getLast? hlast)
  · rintro rfl
    rw [List.append_nil, List.replicate_succ', List.getLast?_concat]

theorem Indented.ne_nil {k : Nat} {u l : Line} (h : Indented k u l) : l ≠ [] := by
  intro hnil
  have hlen := h.length
  rw [hnil, List.length_nil] at hlen
  omega

theorem Indented.append {k : Nat} {u l w : Line} (h : Indented k u l) (hw : space ∉ w) :
    Indented k (u ++ w) (l ++ w) := by
  refine ⟨by rw [h.line, List.append_assoc], fun hmem => ?_⟩
  exact (List.mem_append.mp hmem).elim h.word hw

/-- Behind a call that has found room there is still room for the bytes to come. -/
theorem room_behind {c : Cmd} {k n : Nat} (hproper : c.Proper) (hraw : ∀ x, c = .raw x → k ≠ 0)
    (hends : c.ends = false) (hstr : c.isStr = false)
    (hroom : c.isRaw ∨ n + c.width ≤ maxLine) (hk : n + k ≤ maxLine) :
    n + c.appended.length + c.pending k ≤ maxLine := by
  cases c with
  | raw x =>
    have hpos := hraw x rfl
    show n + 1 + (k - 1) ≤ maxLine
    omega
  | lead m x =>
    have hwidth : n + m ≤ maxLine := hroom.resolve_left Bool.false_ne_true
    have hpos := hproper.1
    show n + 1 + (m - 1) ≤ maxLine
    omega
  | byte x => exact hroom.resolve_left Bool.false_ne_true
  | space => exact hroom.resolve_left Bool.false_ne_true
  | utf8 cp => exact hroom.resolve_left Bool.false_ne_true
  | str s => cases hstr
  | indent d => cases hends
  | flush => cases hends

/-! ## 4. Whole runs -/

/-- A word that finds no room behind the spaces leaves an empty line. -/
theorem Indented.exists_blank {cs : List Cmd} {k j : Nat} {u : Line} {b : LineBuf}
    (h : Indented j u b.line) (hb : Holds k b) (hcs : Paced k cs)
    (hstr : ∀ c ∈ cs, c.isStr = false) (hroom : b.line.length + k ≤ maxLine)
    (hneed : maxLine < b.line.length + needBehind u cs) : [] ∈ linesAll cs b := by
  induction cs generalizing k u b with
  | nil =>
    have hzero : needBehind u [] = 0 := by
      rw [needBehind]
      split <;> rfl
    omega
  | cons c cs ih =>
    obtain ⟨hproper, hraw, hrest⟩ := hcs
    obtain ⟨hstrc, hstrs⟩ := List.forall_mem_cons.mp hstr
    have hnext := hb.exec c hproper (.of_raw fun x hx hk => absurd hk (hraw x hx))
    have hturn := turn hb hproper hraw hstrc
    rw [linesAll]
    generalize hline' : (exec c b).line = l' at hturn
    generalize lines c b = ls at hturn
    cases hturn with
    | skip hc hl =>
      have hu : u = [] := h.getLast?.mp (hl.resolve_left h.ne_nil)
      subst hu hc
      have hsame : needBehind [] (.space :: cs) = needBehind [] cs := by
        rw [needBehind, if_pos rfl, dropWhile_space, needBehind, if_pos rfl]
      rw [List.nil_append]
      refine ih (hline' ▸ h) hnext hrest hstrs ?_ ?_
      · rw [hline']
        exact Nat.le_trans (Nat.add_le_add_left (Nat.zero_le k) _) hroom
      · rwa [hline', ← hsame]
    | stay hends hfits hl =>
      have hc : u = [] → c ≠ .space := fun hu hc => (hl hc).2 (h.getLast?.mpr hu)
      rw [needBehind_cons hc] at hneed
      have hroom' := room_behind hproper hraw hends hstrc hfits hroom
      have hwidth : b.line.length + c.width ≤ maxLine := by
        rcases hfits with hisraw | hfits
        · cases c with
          | raw x => exact Nat.le_of_add_right_le hroom
          | _ => cases hisraw
        · exact hfits
      rcases appended_cases hends hstrc with hspace | ⟨hne, hword⟩
      · rw [need_space hends hspace] at hneed
        omega
      · rw [need_word hends hword] at hneed
        have hne' : u ++ c.appended ≠ [] := fun hnil => hne (List.append_eq_nil_iff.mp hnil).2
        rw [List.nil_append]
        refine ih (u := u ++ c.appended) (hline' ▸ h.append hword) hnext hrest hstrs ?_ ?_
        · rw [hline', List.length_append]
          exact hroom'
        · rw [hline', List.length_append, needBehind, if_neg hne']
          omega
    | wrap hends hfull hl =>
      rw [h.breakLine]
      exact List.mem_append_left _ (List.mem_singleton.mpr rfl)
    | ends hc =>
      have hne : u = [] → c ≠ .space := fun _ heq => by
        rw [heq] at hc
        cases hc
      have hzero : need (c :: cs) = 0 := by rw [need, if_pos hc]
      rw [needBehind_cons hne, hzero] at hneed
      omega

/-- What stands on a line that is not about to be printed empty. -/
inductive Sound (cs : List Cmd) (l : Line) : Prop
  | solid (h : space ∉ l)
  | anchored (h : Anchored l)
  | indented {k : Nat} {u : Line} (h : Indented k u l)
      (hneed : l.length + needBehind u cs ≤ maxLine)

/-- A line without spaces, with what a call appends to it. -/
theorem sound_append {cs : List Cmd} {b : LineBuf} (hfit : FirstWordsFit cs b) {q w : Line}
    (hb : b.line = q ++ w) (hq : space ∉ q) (hw : w = [space] ∨ w ≠ [] ∧ space ∉ w) :
    Sound cs b.line := by
  rcases hw with rfl | ⟨-, hw⟩
  · by_cases hnil : q = []
    · subst hnil
      have hline : b.line = List.replicate (0 + 1) space := hb
      refine .indented (k := 0) (u := []) ⟨by rw [hline]; rfl, List.not_mem_nil⟩ ?_
      rw [hline, List.length_replicate]
      exact hfit [] cs 0 rfl hline
    · obtain ⟨c, q', rfl⟩ := List.exists_cons_of_ne_nil hnil
      refine .anchored ⟨c :: q', [], hb, List.not_mem_nil, c, List.mem_cons_self, ?_⟩
      exact fun hc => hq (hc ▸ List.mem_cons_self)
  · refine .solid fun hmem => ?_
    rw [hb] at hmem
    exact (List.mem_append.mp hmem).elim hq hw

theorem Anchored.append {l w : Line} (h : Anchored l) (hw : w = [space] ∨ w ≠ [] ∧ space ∉ w) :
    Anchored (l ++ w) := by
  obtain ⟨p, q, rfl, hq, c, hc, hne⟩ := h
  rcases hw with rfl | ⟨-, hw⟩
  · exact ⟨p ++ space :: q, [], rfl, List.not_mem_nil, c, List.mem_append_left _ hc, hne⟩
  · refine ⟨p, q ++ w, by rw [List.append_assoc, List.cons_append], fun hmem => ?_, c, hc, hne⟩
    exact (List.mem_append.mp hmem).elim hq hw

theorem visible_of_notMem {l : Line} (hne : l ≠ []) (h : space ∉ l) : Visible l := by
  obtain ⟨c, l, rfl⟩ := List.exists_cons_of_ne_nil hne
  exact ⟨c, List.mem_cons_self, fun hc => h (hc ▸ List.mem_cons_self)⟩

theorem Visible.rdropWhile {l : Line} (h : Visible l) : Visible (l.rdropWhile (· = space)) := by
  obtain ⟨c, hc, hne⟩ := h
  by_contra hnot
  have hsolid := solid_rdropWhile l
  have hmem : c ∈ solid l := List.mem_filter.mpr ⟨hc, decide_eq_true hne⟩
  rw [← hsolid] at hmem
  exact hnot ⟨c, (List.mem_filter.mp hmem).1, hne⟩

theorem visible_flushLines (l : Line) : ∀ m ∈ flushLines l, Visible m := by
  unfold flushLines
  split
  · exact List.forall_mem_nil _
  · next hne =>
    rw [List.forall_mem_singleton]
    refine ⟨_, List.getLast_mem hne, fun hlast => ?_⟩
    exact (List.rdropWhile_last_not _ _ hne) (decide_eq_true hlast)

/-- The indentation, or the word behind it, with what a call appends to it. -/
theorem Indented.sound_append {k : Nat} {u l : Line} {c : Cmd} {cs : List Cmd} {b : LineBuf}
    (h : Indented k u l) (hneed : l.length + need (c :: cs) ≤ maxLine) (hends : c.ends = false)
    (hstr : c.isStr = false) (hfit : FirstWordsFit cs b) (hb : b.line = l ++ c.appended) :
    Sound cs b.line := by
  rw [hb]
  rcases appended_cases hends hstr with hspace | ⟨hne, hword⟩
  · by_cases hu : u = []
    -- one space more, so the next word has to fit behind it
    · subst hu
      have hspaces : l ++ c.appended = List.replicate (k + 1 + 1) space := by
        rw [h.line, hspace, List.append_nil, ← List.replicate_succ']
      refine .indented (k := k + 1) (u := []) ⟨?_, List.not_mem_nil⟩ ?_
      · rw [hspaces, List.append_nil]
      · rw [hspaces, List.length_replicate]
        exact hfit [] cs (k + 1) rfl (hb.trans hspaces)
    · obtain ⟨x, u, rfl⟩ := List.exists_cons_of_ne_nil hu
      refine .anchored ⟨l, [], by rw [hspace], List.not_mem_nil, x, ?_, fun hx => ?_⟩
      · rw [h.line]
        exact List.mem_append_right _ List.mem_cons_self
      · exact h.word (hx ▸ List.mem_cons_self)
  · rw [need_word hends hword] at hneed
    have hne' : u ++ c.appended ≠ [] := fun hnil => hne (List.append_eq_nil_iff.mp hnil).2
    refine .indented (h.append hword) ?_
    rw [List.length_append, needBehind, if_neg hne']
    omega

/-- A call that ends the line writes no empty one, and the next word fits behind an indentation. -/
theorem sound_ends {c : Cmd} {cs : List Cmd} {b : LineBuf} (hends : c.ends = true)
    (hfit : FirstWordsFit cs b) (hb : b.line = c.appended) : Sound cs c.appended := by
  cases c with
  | indent d =>
    show Sound cs (List.replicate (indentWidth d) space)
    replace hb : b.line = List.replicate (indentWidth d) space := hb
    cases hwidth : indentWidth d with
    | zero => exact .solid List.not_mem_nil
    | succ j =>
      rw [hwidth] at hb
      refine .indented (k := j) (u := []) ⟨(List.append_nil _).symm, List.not_mem_nil⟩ ?_
      rw [List.length_replicate]
      exact hfit [] cs j rfl hb
  | flush => exact .solid List.not_mem_nil
  | _ => cases hends

/-- A call on a sound line writes no empty line and leaves a sound one. -/
theorem Sound.step {c : Cmd} {cs : List Cmd} {l l' : Line} {ls : List Line} {b : LineBuf}
    (h : Sound (c :: cs) l) (hturn : Turn c l l' ls) (hproper : c.Proper) (hstr : c.isStr = false)
    (hfit : FirstWordsFit cs b) (hb : b.line = l') : (∀ m ∈ ls, Visible m) ∧ Sound cs l' := by
  cases hturn with
  | skip hc hl =>
    refine ⟨List.forall_mem_nil _, ?_⟩
    cases h with
    | solid h => exact .solid h
    | anchored h => exact .anchored h
    | @indented j u h hneed =>
      have hu : u = [] := h.getLast?.mp (hl.resolve_left h.ne_nil)
      subst hu hc
      refine .indented h ?_
      rwa [needBehind, if_pos rfl, dropWhile_space] at hneed
  | stay hends hfits hl =>
    refine ⟨List.forall_mem_nil _, ?_⟩
    have happended := appended_cases hends hstr
    cases h with
    | solid h => exact hb ▸ sound_append hfit hb h happended
    | anchored h => exact .anchored (h.append happended)
    | @indented j u h hneed =>
      rw [needBehind_cons fun hu hc => (hl hc).2 (h.getLast?.mpr hu)] at hneed
      exact hb ▸ h.sound_append hneed hends hstr hfit hb
  | wrap hends hfull hl =>
    rw [List.forall_mem_singleton]
    have happended := appended_cases hends hstr
    cases h with
    | solid h =>
      have hne : l ≠ [] := by
        intro hnil
        have hwidth := width_le hproper
        rw [hnil, List.length_nil] at hfull
        unfold maxLine at hfull
        omega
      rw [breakLine_of_notMem h] at hb ⊢
      exact ⟨visible_of_notMem hne h, hb ▸ sound_append hfit hb List.not_mem_nil happended⟩
    | anchored h =>
      obtain ⟨p, q, hline, hq, hp⟩ := h
      rw [hline, breakLine_append hq] at hb ⊢
      exact ⟨hp.rdropWhile, hb ▸ sound_append hfit hb hq happended⟩
    -- the first word has fitted so far, and it is not broken here
    | @indented j u h hneed =>
      rw [needBehind_cons fun hu hc => (hl hc).2 (h.getLast?.mpr hu)] at hneed
      have hle := width_le_need hends cs
      omega
  | ends hc => exact ⟨visible_flushLines _, sound_ends hc hfit hb⟩

/-- Where every first word fits, no line is empty. -/
theorem Sound.visible {cs : List Cmd} {k : Nat} {b : LineBuf} (h : Sound cs b.line)
    (hfit : FirstWordsFit cs b) (hb : Holds k b) (hcs : Paced k cs)
    (hstr : ∀ c ∈ cs, c.isStr = false) : ∀ l ∈ linesAll cs b, Visible l := by
  induction cs generalizing k b with
  | nil => exact List.forall_mem_nil _
  | cons c cs ih =>
    obtain ⟨hproper, hraw, hrest⟩ := hcs
    obtain ⟨hstrc, hstrs⟩ := List.forall_mem_cons.mp hstr
    have hnext := hb.exec c hproper (.of_raw fun x hx hk => absurd hk (hraw x hx))
    obtain ⟨hwritten, hsound⟩ :=
      h.step (turn hb hproper hraw hstrc) hproper hstrc hfit.tail rfl
    rw [linesAll, List.forall_mem_append]
    exact ⟨hwritten, ih hsound hfit.tail hnext hrest hstrs⟩

theorem Paced.of_append {k : Nat} {cs ds : List Cmd} (h : Paced k (cs ++ ds)) :
    Paced (pendingAll k cs) ds := by
  induction cs generalizing k with
  | nil => exact h
  | cons c cs ih => exact ih h.2.2

/-- A line that begins with a space is not too long, nor will be with the bytes to come. -/
theorem Holds.room_of_space {k : Nat} {b : LineBuf} (h : Holds k b)
    (hspace : space ∈ b.line.take 1) : b.line.length + k ≤ maxLine := by
  by_contra hlong
  refine h.spaces (Nat.not_le.mp hlong) ?_
  have hle : 1 ≤ b.line.length + k - 3 := by
    unfold maxLine at hlong
    omega
  exact List.take_subset_take_left b.line hle hspace

/-- No line is empty exactly when every first word fits. -/
theorem visible_iff {cs : List Cmd} (hcs : Paced 0 cs) (hstr : ∀ c ∈ cs, c.isStr = false) :
    (∀ l ∈ linesAll cs .empty, Visible l) ↔ FirstWordsFit cs .empty := by
  constructor
  · rintro hvisible pre post k rfl hline
    by_contra hnot
    have hpre := hcs.of_prefix (List.prefix_append pre post)
    have hb := Holds.empty.execAll hpre.proper (hpre.roomy .empty)
    have hspaces : Indented k [] (execAll pre .empty).line :=
      ⟨by rw [hline, List.append_nil], List.not_mem_nil⟩
    have hlen := hspaces.length
    rw [List.length_nil, Nat.add_zero] at hlen
    have hblank : [] ∈ linesAll post (execAll pre .empty) :=
      hspaces.exists_blank hb hcs.of_append (fun c hc => hstr c (List.mem_append_right pre hc))
        (hb.room_of_space (by rw [hline]; exact List.mem_cons_self)) (by rw [hlen]; omega)
    rw [linesAll_append, List.forall_mem_append] at hvisible
    obtain ⟨c, hc, -⟩ := hvisible.2 [] hblank
    cases hc
  · exact fun hfit => Sound.visible (.solid List.not_mem_nil) hfit .empty hcs hstr

end LineBuf
