import ZteWifi.Text.Room

/-!
# How long the lines are

A line that is full is broken at its last space.  What stands behind that space is kept and may be
nearly a whole line; the character that was to find room is appended to it all the same.  So no line
is too long exactly when each character fits behind the last space of the line it comes to.
-/

open Ascii

namespace LineBuf

/-! ## 1. Characters that fit -/

/-- The number of bytes for which a call makes room at a time. -/
def Cmd.width : Cmd → Nat
  | .byte _ | .space => 1
  | .lead n _ => n
  | .str s => utf8CharLen (s.headD 0)
  | .utf8 cp => (utf8Bytes cp).length
  | .raw _ | .indent _ | .flush => 0

def Cmd.isRaw : Cmd → Bool
  | .raw _ => true
  | _ => false

/-- An ASCII text or a single other character. -/
def Cmd.Plain : Cmd → Prop
  | .str s => s ≠ [] ∧ ((∀ c ∈ s, c < 0x80) ∨
      ∃ c t, s = c :: t ∧ ¬ c < 0x80 ∧ utf8CharLen c = t.length + 1)
  | _ => True

/-- The part of a line that is printed when a call needs room on it or ends it. -/
def shown : Cmd → Line → Line
  | .flush, l | .indent _, l => l.rdropWhile (· = space)
  | _, l => (breakLine l).1

/-- How many bytes of a character are printed with the line it comes to, when `u` of it has been
appended and the calls follow: all of them, but for spaces that ill-formed input has among them. -/
def reach (u : List UInt8) : List Cmd → Nat
  | [] => 0
  | .raw x :: cs => reach (u ++ [x]) cs
  | .space :: cs => if u.getLast? = some space then reach u cs else (shown .space u).length
  | c :: _ => (shown c u).length

/-- Each character of more than one byte fits behind the last space of the line it comes to. -/
def Fits (cs : List Cmd) (b : LineBuf) : Prop :=
  ∀ ds c es, cs = ds ++ c :: es → 1 < c.width →
    (breakLine (execAll ds b).line).2.length + reach c.appended es ≤ maxLine

theorem Fits.tail {c : Cmd} {cs : List Cmd} {b : LineBuf} (h : Fits (c :: cs) b) :
    Fits cs (exec c b) := by
  intro ds d es heq
  exact h (c :: ds) d es (by rw [heq]; rfl)

/-- A call that folds white space onto a space does nothing. -/
def Idle (c : Cmd) (l : Line) : Prop := c = .space ∧ l.getLast? = some space

theorem reach_cons {u : List UInt8} {c : Cmd} (hraw : c.isRaw = false) (hidle : ¬ Idle c u)
    (cs : List Cmd) : reach u (c :: cs) = (shown c u).length := by
  cases c with
  | raw x => cases hraw
  | space => exact if_neg fun hlast => hidle ⟨rfl, hlast⟩
  | _ => rfl

theorem reach_idle {u : List UInt8} {c : Cmd} (hidle : Idle c u) (cs : List Cmd) :
    reach u (c :: cs) = reach u cs := by
  obtain ⟨rfl, hlast⟩ := hidle
  exact if_pos hlast

/-! ## 2. What is printed of a line -/

theorem rdropWhile_append {q : Line} (hq : space ∉ q) (u : Line) :
    (q ++ u).rdropWhile (· = space) = q ++ u.rdropWhile (· = space) := by
  induction u using List.reverseRecOn with
  | nil =>
    rw [List.append_nil, List.rdropWhile_nil, List.append_nil, List.rdropWhile_eq_self_iff]
    intro hne hlast
    exact hq (of_decide_eq_true hlast ▸ List.getLast_mem hne)
  | append_singleton u c ih =>
    rw [← List.append_assoc]
    by_cases hc : c = space
    · rw [List.rdropWhile_concat_pos _ _ _ (by simpa using hc),
        List.rdropWhile_concat_pos _ _ _ (by simpa using hc), ih]
    · rw [List.rdropWhile_concat_neg _ _ _ (by simpa using hc),
        List.rdropWhile_concat_neg _ _ _ (by simpa using hc), List.append_assoc]

theorem breakLine_append_left {q : Line} (hq : space ∉ q) (u : Line) :
    (breakLine (q ++ u)).1 = q ++ (breakLine u).1 := by
  rcases breakLine_cases u with ⟨hu, heq⟩ | ⟨p, r, rfl, hr, heq⟩
  · have hqu : space ∉ q ++ u := by
      rw [List.mem_append, not_or]
      exact ⟨hq, hu⟩
    rw [heq, breakLine_of_notMem hqu]
  · rw [heq, ← List.append_assoc, breakLine_append hr]
    exact rdropWhile_append hq p

/-- What was kept of a line before is printed whole. -/
theorem shown_append {q : Line} (hq : space ∉ q) (c : Cmd) (u : Line) :
    shown c (q ++ u) = q ++ shown c u := by
  cases c with
  | flush => exact rdropWhile_append hq u
  | indent d => exact rdropWhile_append hq u
  | _ => exact breakLine_append_left hq u

theorem length_shown_le (c : Cmd) (l : Line) : (shown c l).length ≤ l.length := by
  cases c with
  | flush => exact length_rdropWhile_le _ l
  | indent d => exact length_rdropWhile_le _ l
  | _ => exact length_written_le l

/-- No more than the bytes that are appended. -/
theorem reach_le {k : Nat} {cs : List Cmd} (hcs : Paced k cs) (u : List UInt8) :
    reach u cs ≤ u.length + k := by
  induction cs generalizing k u with
  | nil => exact Nat.zero_le _
  | cons c cs ih =>
    obtain ⟨-, hraw, hrest⟩ := hcs
    have hshown (d : Cmd) : (shown d u).length ≤ u.length + k :=
      Nat.le_trans (length_shown_le d u) (Nat.le_add_right _ k)
    cases c with
    | raw x =>
      have hk := hraw x rfl
      have hle := ih hrest (u ++ [x])
      rw [List.length_append, List.length_singleton] at hle
      show reach (u ++ [x]) cs ≤ u.length + k
      simp only [Cmd.pending] at hle
      omega
    | space =>
      show (if u.getLast? = some space then reach u cs else _) ≤ _
      split
      · exact Nat.le_trans (ih hrest u) (Nat.add_le_add_left (Nat.zero_le k) _)
      · exact hshown .space
    | _ => exact hshown _

/-! ## 3. One call -/

theorem roomLines_le {n : Nat} {l : Line} (h : (breakLine l).1.length ≤ maxLine) :
    ∀ m ∈ roomLines n l, m.length ≤ maxLine := by
  intro m hm
  unfold roomLines at hm
  split at hm
  · obtain rfl := List.mem_singleton.mp hm
    exact h
  · cases hm

theorem flushLines_le {l : Line} (h : (l.rdropWhile (· = space)).length ≤ maxLine) :
    ∀ m ∈ flushLines l, m.length ≤ maxLine := by
  intro m hm
  unfold flushLines at hm
  split at hm
  · cases hm
  · obtain rfl := List.mem_singleton.mp hm
    exact h

/-- A single byte always finds room behind the last space. -/
theorem Holds.length_appendByte {b : LineBuf} (h : Holds 0 b) (c : UInt8) :
    (LineBuf.appendByte c b).line.length ≤ maxLine := by
  obtain ⟨-, hroom⟩ := h.reserve 1
  rw [appendByte_eq, appendByteNc_eq]
  · rw [List.length_append, List.length_singleton]
    unfold maxLine at *
    omega
  · unfold maxLine at *
    omega

/-- An ASCII text. -/
theorem appendStr_ascii {s : List UInt8} (hs : ∀ c ∈ s, c < 0x80) {b : LineBuf} (hb : Holds 0 b)
    (h : b.line.length ≤ maxLine) : (appendStrLoop 0 s b).line.length ≤ maxLine ∧
      ∀ l ∈ strLines 0 s b, l.length ≤ maxLine := by
  induction s generalizing b with
  | nil => exact ⟨h, List.forall_mem_nil _⟩
  | cons c s ih =>
    obtain ⟨hc, hs⟩ := List.forall_mem_cons.mp hs
    obtain ⟨hline, hlines⟩ := ih hs (hb.appendByte c) (hb.length_appendByte c)
    rw [appendStrLoop, strLines, if_pos hc, if_pos hc]
    have hfirst := roomLines_le (n := 1) (Nat.le_trans (length_written_le b.line) h)
    exact ⟨hline, List.forall_mem_append.mpr ⟨hfirst, hlines⟩⟩

theorem strLines_rest (n : Nat) (t : List UInt8) (b : LineBuf) (hn : t.length ≤ n) :
    appendStrLoop n t b = appendAllNc t b ∧ strLines n t b = [] := by
  induction t generalizing n b with
  | nil => cases n <;> exact ⟨rfl, rfl⟩
  | cons c t ih =>
    cases n with
    | zero => exact absurd hn (Nat.not_succ_le_zero _)
    | succ n => exact ih n (appendByteNc c b) (Nat.le_of_succ_le_succ hn)

/-- A text that is a single character. -/
theorem appendStr_char {c : UInt8} {t : List UInt8} (hc : ¬ c < 0x80)
    (hlen : utf8CharLen c = t.length + 1) (b : LineBuf) :
    appendStrLoop 0 (c :: t) b = appendAllNc (c :: t) (reserve (t.length + 1) b) ∧
      strLines 0 (c :: t) b = roomLines (t.length + 1) b.line := by
  rw [appendStrLoop, strLines, if_neg hc, if_neg hc, hlen]
  obtain ⟨hline, hlines⟩ :=
    strLines_rest (t.length + 1 - 1) t (appendByteNc c (reserve (t.length + 1) b)) (Nat.le_refl _)
  rw [hline, hlines, List.append_nil]
  exact ⟨rfl, rfl⟩

theorem utf8CharLen_ascii : ∀ c : UInt8, c < 0x80 → utf8CharLen c = 1 := by decide +kernel

/-- A text of more than one byte for which room is made at once is a character. -/
theorem plain_char {s : List UInt8} (hplain : (Cmd.str s).Plain) (hwidth : 1 < (Cmd.str s).width) :
    ∃ c t, s = c :: t ∧ ¬ c < 0x80 ∧ utf8CharLen c = t.length + 1 := by
  obtain ⟨hne, hascii | hchar⟩ := hplain
  · obtain ⟨c, s, rfl⟩ := List.exists_cons_of_ne_nil hne
    have hone : utf8CharLen c = 1 := utf8CharLen_ascii c (hascii c List.mem_cons_self)
    exact absurd hone (Nat.ne_of_gt hwidth)
  · exact hchar

/-- All calls for a character of several bytes do the same. -/
theorem exec_char {c : Cmd} (hplain : c.Plain) (hwidth : 1 < c.width) (b : LineBuf) :
    exec c b = appendAllNc c.appended (reserve c.width b) ∧
      lines c b = roomLines c.width b.line ∧ c.appended ≠ [] ∧
      c.appended.length + c.pending 0 = c.width := by
  cases c with
  | byte c => exact absurd hwidth (Nat.lt_irrefl 1)
  | raw c => exact absurd hwidth (Nat.not_lt_zero 1)
  | lead n c => exact ⟨rfl, rfl, List.cons_ne_nil _ _, Nat.add_sub_cancel' (Nat.le_of_lt hwidth)⟩
  | str s =>
    obtain ⟨c, t, rfl, hc, hlen⟩ := plain_char hplain hwidth
    obtain ⟨hexec, hlines⟩ := appendStr_char hc hlen b
    have hwidth : (Cmd.str (c :: t)).width = t.length + 1 := hlen
    rw [hwidth]
    exact ⟨hexec, hlines, List.cons_ne_nil _ _, rfl⟩
  | space => exact absurd hwidth (Nat.lt_irrefl 1)
  | utf8 cp =>
    obtain ⟨c, t, hbytes, -⟩ := utf8Bytes_cons cp
    have hne : utf8Bytes cp ≠ [] := by
      rw [hbytes]
      exact List.cons_ne_nil _ _
    exact ⟨rfl, rfl, hne, rfl⟩
  | indent d => exact absurd hwidth (Nat.not_lt_zero 1)
  | flush => exact absurd hwidth (Nat.not_lt_zero 1)

/-- Any other call but an idle one leaves a line that is not too long. -/
theorem length_exec_le {c : Cmd} {b : LineBuf} (hb : Holds 0 b) (hproper : c.Proper)
    (hplain : c.Plain) (hwidth : c.width ≤ 1) (hraw : c.isRaw = false)
    (hidle : ¬ Idle c b.line) : (exec c b).line.length ≤ maxLine := by
  cases c with
  | byte c => exact hb.length_appendByte c
  | raw c => cases hraw
  | lead n c =>
    obtain rfl : n = 1 := Nat.le_antisymm hwidth hproper.1
    have hbyte := hb.length_appendByte c
    rw [appendByte_eq] at hbyte
    exact hbyte
  | str s =>
    show (appendStrLoop 0 s b).line.length ≤ maxLine
    obtain ⟨hne, hascii | ⟨c, t, rfl, hc, hlen⟩⟩ := hplain
    · obtain ⟨c, s, rfl⟩ := List.exists_cons_of_ne_nil hne
      obtain ⟨hc, hs⟩ := List.forall_mem_cons.mp hascii
      rw [appendStrLoop, if_pos hc]
      exact (appendStr_ascii hs (hb.appendByte c) (hb.length_appendByte c)).1
    · -- a byte that announces no others
      have hone : t.length + 1 ≤ 1 := hlen ▸ hwidth
      obtain rfl : t = [] := List.eq_nil_of_length_eq_zero (by omega)
      have hbyte := hb.length_appendByte c
      rw [appendByte_eq] at hbyte
      rw [(appendStr_char hc hlen b).1]
      exact hbyte
  | space =>
    show (appendSpace b).line.length ≤ maxLine
    unfold appendSpace
    split
    · exact hb.length_appendByte space
    · next hskip =>
      -- nothing is appended to an empty line
      have hnil : b.line = [] := by
        by_contra hne
        exact hskip ⟨hne, fun hlast => hidle ⟨rfl, hlast⟩⟩
      rw [hnil]
      exact Nat.zero_le _
  | utf8 cp =>
    show (appendAllNc (utf8Bytes cp) (reserve (utf8Bytes cp).length b)).line.length ≤ maxLine
    obtain ⟨c, t, hbytes, -⟩ := utf8Bytes_cons cp
    have hone : (utf8Bytes cp).length ≤ 1 := hwidth
    rw [hbytes, List.length_cons] at hone
    obtain rfl : t = [] := List.eq_nil_of_length_eq_zero (by omega)
    have hbyte := hb.length_appendByte c
    rw [appendByte_eq] at hbyte
    rw [hbytes]
    exact hbyte
  | indent d =>
    show (outputIndent d b).line.length ≤ maxLine
    have hwidth := indentWidth_le d
    rw [outputIndent_eq, List.length_replicate]
    unfold maxLine at *
    omega
  | flush =>
    show (flushLine b).line.length ≤ maxLine
    rw [flushLine_line]
    exact Nat.zero_le _

/-- What a call prints is short if what it shows of the line is. -/
theorem lines_le {c : Cmd} {b : LineBuf} (hb : Holds 0 b) (hplain : c.Plain)
    (hraw : c.isRaw = false) (h : (shown c b.line).length ≤ maxLine) :
    ∀ l ∈ lines c b, l.length ≤ maxLine := by
  cases c with
  | raw c => cases hraw
  | str s =>
    show ∀ l ∈ strLines 0 s b, l.length ≤ maxLine
    obtain ⟨hne, hascii | ⟨c, t, rfl, hc, hlen⟩⟩ := hplain
    · obtain ⟨c, s, rfl⟩ := List.exists_cons_of_ne_nil hne
      obtain ⟨hc, hs⟩ := List.forall_mem_cons.mp hascii
      rw [strLines, if_pos hc, List.forall_mem_append]
      exact ⟨roomLines_le h, (appendStr_ascii hs (hb.appendByte c) (hb.length_appendByte c)).2⟩
    · rw [(appendStr_char hc hlen b).2]
      exact roomLines_le h
  | space =>
    rw [lines]
    split
    · exact roomLines_le h
    · exact List.forall_mem_nil _
  | byte c => exact roomLines_le h
  | lead n c => exact roomLines_le h
  | utf8 cp => exact roomLines_le h
  | indent d => exact flushLines_le h
  | flush => exact flushLines_le h

/-- A line that is too long is shown by the next call that is not idle. -/
theorem mem_lines {c : Cmd} {b : LineBuf} (hproper : c.Proper) (hplain : c.Plain)
    (hraw : c.isRaw = false) (hidle : ¬ Idle c b.line) (hlong : maxLine < (shown c b.line).length) :
    shown c b.line ∈ lines c b := by
  have hline : maxLine < b.line.length := Nat.lt_of_lt_of_le hlong (length_shown_le c b.line)
  have hroom {n : Nat} (hn : 1 ≤ n) : (breakLine b.line).1 ∈ roomLines n b.line := by
    unfold roomLines
    rw [if_pos (by omega)]
    exact List.mem_singleton.mpr rfl
  have hflush (h : maxLine < (b.line.rdropWhile (· = space)).length) :
      b.line.rdropWhile (· = space) ∈ flushLines b.line := by
    unfold flushLines
    rw [if_neg]
    · exact List.mem_singleton.mpr rfl
    · intro hnil
      rw [hnil] at h
      exact absurd h (Nat.not_lt_zero _)
  cases c with
  | raw c => cases hraw
  | byte c => exact hroom (Nat.le_refl 1)
  | lead n c => exact hroom hproper.1
  | str s =>
    obtain ⟨hne, -⟩ := hplain
    obtain ⟨c, s, rfl⟩ := List.exists_cons_of_ne_nil hne
    show (breakLine b.line).1 ∈ strLines 0 (c :: s) b
    rw [strLines]
    split
    · exact List.mem_append_left _ (hroom (Nat.le_refl 1))
    · exact List.mem_append_left _ (hroom (utf8CharLen_pos c))
  | space =>
    have hne : b.line ≠ [] := by
      intro hnil
      rw [hnil] at hline
      exact absurd hline (Nat.not_lt_zero _)
    rw [lines, if_pos ⟨hne, fun hlast => hidle ⟨rfl, hlast⟩⟩]
    exact hroom (Nat.le_refl 1)
  | utf8 cp =>
    obtain ⟨c, t, hbytes, -⟩ := utf8Bytes_cons cp
    have hpos : 1 ≤ (utf8Bytes cp).length := by
      rw [hbytes]
      exact Nat.le_add_left 1 _
    exact hroom hpos
  | indent d => exact hflush hlong
  | flush => exact hflush hlong

/-! ## 4. Whole runs -/

theorem width_le {c : Cmd} (hproper : c.Proper) : c.width ≤ 4 := by
  cases c with
  | lead n c => exact hproper.2.1
  | str s => exact utf8CharLen_le _
  | utf8 cp =>
    obtain ⟨c, t, hbytes, ht, -⟩ := utf8Bytes_cons cp
    show (utf8Bytes cp).length ≤ 4
    rw [hbytes]
    exact Nat.succ_le_succ ht
  | byte c => exact Nat.le_of_ble_eq_true rfl
  | space => exact Nat.le_of_ble_eq_true rfl
  | raw c => exact Nat.zero_le _
  | indent d => exact Nat.zero_le _
  | flush => exact Nat.zero_le _

/-- When the line is broken for a character, its first bytes stand behind what was kept of it. -/
theorem exec_broken {c : Cmd} {b : LineBuf} (hb : Holds 0 b) (hproper : c.Proper) (hplain : c.Plain)
    (hwidth : 1 < c.width) (hfull : maxLine < b.line.length + c.width) :
    (exec c b).line = (breakLine b.line).2 ++ c.appended := by
  obtain ⟨hexec, -, -, hlen⟩ := exec_char hplain hwidth b
  have hkept := hb.length_kept
  have hle := width_le hproper
  have hreserve : (reserve c.width b).line = (breakLine b.line).2 := by
    unfold reserve
    rw [if_pos hfull, wrapLine_eq]
  have hroom : (reserve c.width b).line.length + c.appended.length ≤ maxLine + 4 := by
    rw [hreserve]
    unfold maxLine at *
    omega
  rw [hexec, appendAllNc_eq hroom, hreserve]

/-- Otherwise there is room for all of it. -/
theorem exec_room {c : Cmd} {b : LineBuf} (hplain : c.Plain) (hwidth : 1 < c.width)
    (hroom : b.line.length + c.width ≤ maxLine) :
    (exec c b).line.length + c.pending 0 ≤ maxLine := by
  obtain ⟨hexec, -, -, hlen⟩ := exec_char hplain hwidth b
  have hreserve : reserve c.width b = b := by
    unfold reserve
    rw [if_neg (Nat.not_lt.mpr hroom)]
  rw [hexec, hreserve, appendAllNc_eq (by unfold maxLine at *; omega), List.length_append]
  omega

theorem pending_of_not_raw {c : Cmd} (hraw : c.isRaw = false) (k : Nat) :
    c.pending k = c.pending 0 := by
  cases c with
  | raw x => cases hraw
  | _ => rfl

theorem isRaw_of_width {c : Cmd} (hwidth : 1 < c.width) : c.isRaw = false := by
  cases c with
  | raw x => exact absurd hwidth (Nat.not_lt_zero 1)
  | _ => rfl

/-- Only a call of more than one byte leaves bytes to come. -/
theorem pending_of_width {c : Cmd} (hproper : c.Proper) (hwidth : c.width ≤ 1)
    (hraw : c.isRaw = false) : c.pending 0 = 0 := by
  cases c with
  | lead n c =>
    obtain rfl : n = 1 := Nat.le_antisymm hwidth hproper.1
    rfl
  | raw x => cases hraw
  | _ => rfl

theorem exec_idle {c : Cmd} {b : LineBuf} (hidle : Idle c b.line) :
    exec c b = b ∧ lines c b = [] ∧ ∀ k, c.pending k = 0 := by
  obtain ⟨rfl, hlast⟩ := hidle
  have hskip : ¬ (b.line ≠ [] ∧ b.line.getLast? ≠ some space) := fun h => h.2 hlast
  exact ⟨if_neg hskip, if_neg hskip, fun _ => rfl⟩

theorem idle_append {c : Cmd} {q u : Line} (hu : u ≠ []) : Idle c (q ++ u) ↔ Idle c u := by
  unfold Idle
  rw [List.getLast?_append_of_ne_nil q hu]

/-- The line is not too long with the bytes still to come, or no more of its last character `u` will
be printed with it than fits behind what was kept of the line before. -/
def Narrow (k : Nat) (cs : List Cmd) (b : LineBuf) : Prop :=
  b.line.length + k ≤ maxLine ∨
    ∃ q u, b.line = q ++ u ∧ space ∉ q ∧ u ≠ [] ∧ q.length + reach u cs ≤ maxLine

theorem Narrow.shown_le {k : Nat} {c : Cmd} {cs : List Cmd} {b : LineBuf}
    (h : Narrow k (c :: cs) b) (hraw : c.isRaw = false) (hidle : ¬ Idle c b.line) :
    (shown c b.line).length ≤ maxLine := by
  rcases h with hle | ⟨q, u, hline, hq, hu, hle⟩
  · exact Nat.le_trans (length_shown_le c b.line) (Nat.le_of_add_right_le hle)
  · rw [hline, idle_append hu] at hidle
    rw [reach_cons hraw hidle] at hle
    rw [hline, shown_append hq, List.length_append]
    exact hle

/-- A call keeps the line narrow if its character fits. -/
theorem Narrow.exec {k : Nat} {c : Cmd} {cs : List Cmd} {b : LineBuf} (h : Narrow k (c :: cs) b)
    (hb : Holds k b) (hproper : c.Proper) (hplain : c.Plain) (hpending : ∀ x, c = .raw x → k ≠ 0)
    (hfit : 1 < c.width → (breakLine b.line).2.length + reach c.appended cs ≤ maxLine) :
    Narrow (c.pending k) cs (exec c b) := by
  have hb₀ := hb.mono (Nat.zero_le k)
  have hlen := hb.length_le
  by_cases hraw : c.isRaw = false
  · by_cases hidle : Idle c b.line
    · obtain ⟨hexec, -, hzero⟩ := exec_idle hidle
      rw [hexec, hzero]
      rcases h with hle | ⟨q, u, hline, hq, hu, hle⟩
      · exact .inl (Nat.le_of_add_right_le hle)
      · rw [hline, idle_append hu] at hidle
        rw [reach_idle hidle] at hle
        exact .inr ⟨q, u, hline, hq, hu, hle⟩
    · rw [pending_of_not_raw hraw]
      rcases Nat.lt_or_ge 1 c.width with hwidth | hwidth
      · rcases Nat.lt_or_ge maxLine (b.line.length + c.width) with hfull | hroom
        -- the line is broken, and the character stands behind what is kept
        · obtain ⟨-, -, hne, -⟩ := exec_char hplain hwidth b
          exact .inr ⟨_, _, exec_broken hb₀ hproper hplain hwidth hfull, space_notMem_kept _, hne,
            hfit hwidth⟩
        · exact .inl (exec_room hplain hwidth hroom)
      · left
        rw [pending_of_width hproper hwidth hraw]
        exact length_exec_le hb₀ hproper hplain hwidth hraw hidle
  · cases c with
    | raw x =>
      -- the next byte of the last character
      have hk := hpending x rfl
      show Narrow (k - 1) cs (appendByteNc x b)
      rw [appendByteNc_eq (by omega)]
      rcases h with hle | ⟨q, u, hline, hq, hu, hle⟩
      · left
        rw [List.length_append, List.length_singleton]
        omega
      · refine .inr ⟨q, u ++ [x], ?_, hq, List.append_ne_nil_of_left_ne_nil hu _, hle⟩
        rw [hline, List.append_assoc]
    | _ => exact absurd rfl hraw

/-- No line is too long if each character fits. -/
theorem linesAll_le {k : Nat} {cs : List Cmd} {b : LineBuf} (h : Narrow k cs b) (hb : Holds k b)
    (hpaced : Paced k cs) (hplain : ∀ c ∈ cs, c.Plain) (hfits : Fits cs b) :
    ∀ l ∈ linesAll cs b, l.length ≤ maxLine := by
  induction cs generalizing k b with
  | nil => exact List.forall_mem_nil _
  | cons c cs ih =>
    obtain ⟨hproper, hpending, hpaced⟩ := hpaced
    obtain ⟨hc, hcs⟩ := List.forall_mem_cons.mp hplain
    have hnext := h.exec hb hproper hc hpending fun hwidth => hfits [] c cs rfl hwidth
    have hb' := hb.exec c hproper (.of_raw fun x hx hk => absurd hk (hpending x hx))
    rw [linesAll, List.forall_mem_append]
    refine ⟨?_, ih hnext hb' hpaced hcs hfits.tail⟩
    by_cases hraw : c.isRaw = false
    · by_cases hidle : Idle c b.line
      · rw [(exec_idle hidle).2.1]
        exact List.forall_mem_nil _
      · exact lines_le (hb.mono (Nat.zero_le k)) hc hraw (h.shown_le hraw hidle)
    · cases c with
      | raw x => exact List.forall_mem_nil _
      | _ => exact absurd rfl hraw

/-- A line is printed too long if too much of its last character is printed with it. -/
theorem exists_long {k : Nat} {cs : List Cmd} {b : LineBuf} {q u : Line} (hline : b.line = q ++ u)
    (hq : space ∉ q) (hu : u ≠ []) (hqlen : q.length ≤ maxLine) (hb : Holds k b)
    (hpaced : Paced k cs) (hplain : ∀ c ∈ cs, c.Plain) (hlong : maxLine < q.length + reach u cs) :
    ∃ l ∈ linesAll cs b, maxLine < l.length := by
  induction cs generalizing k b u with
  | nil => exact absurd hqlen (Nat.not_le.mpr hlong)
  | cons c cs ih =>
    obtain ⟨hproper, hpending, hpaced⟩ := hpaced
    obtain ⟨hc, hcs⟩ := List.forall_mem_cons.mp hplain
    have hb' := hb.exec c hproper (.of_raw fun x hx hk => absurd hk (hpending x hx))
    by_cases hraw : c.isRaw = false
    · by_cases hidle : Idle c b.line
      · obtain ⟨hexec, -⟩ := exec_idle hidle
        rw [hexec] at hb'
        rw [hline, idle_append hu] at hidle
        rw [reach_idle hidle] at hlong
        obtain ⟨l, hl, hlen⟩ := ih hline hu hb' hpaced hcs hlong
        rw [linesAll, hexec]
        exact ⟨l, List.mem_append_right _ hl, hlen⟩
      -- this call prints the line, or ends it
      · have hshown : maxLine < (shown c b.line).length := by
          rw [hline, idle_append hu] at hidle
          rw [reach_cons hraw hidle] at hlong
          rw [hline, shown_append hq, List.length_append]
          exact hlong
        exact ⟨_, List.mem_append_left _ (mem_lines hproper hc hraw hidle hshown), hshown⟩
    · cases c with
      | raw x =>
        have hk := hpending x rfl
        have hlen := hb.length_le
        have hnext : (exec (.raw x) b).line = q ++ (u ++ [x]) := by
          show (appendByteNc x b).line = _
          rw [appendByteNc_eq (by omega), hline, List.append_assoc]
        exact ih hnext (List.append_ne_nil_of_left_ne_nil hu _) hb' hpaced hcs hlong
      | _ => exact absurd rfl hraw

/-! ## 5. Characters fit exactly when lines do -/

theorem Paced.behind {k : Nat} {ds cs : List Cmd} (h : Paced k (ds ++ cs)) :
    Paced (pendingAll k ds) cs := by
  induction ds generalizing k with
  | nil => exact h
  | cons d ds ih => exact ih h.2.2

/-- Calls whose texts are plain and whose bytes belong to characters.  The last bytes of a character
may be missing. -/
structure Orderly (cs : List Cmd) : Prop where
  paced : Paced 0 cs
  plain : ∀ c ∈ cs, c.Plain

/-- No line is too long exactly when each character fits. -/
theorem Orderly.linesAll_le_iff {cs : List Cmd} (hcs : Orderly cs) :
    (∀ l ∈ linesAll cs .empty, l.length ≤ maxLine) ↔ Fits cs .empty := by
  constructor
  · intro hlines ds c es heq hwidth
    by_contra hlong
    obtain ⟨hpaced, hplain⟩ := hcs
    subst heq
    rw [linesAll_append, linesAll, List.forall_mem_append, List.forall_mem_append] at hlines
    obtain ⟨-, hplain⟩ := List.forall_mem_append.mp hplain
    obtain ⟨hc, hes⟩ := List.forall_mem_cons.mp hplain
    have hbefore := hpaced.of_prefix (List.prefix_append ds (c :: es))
    have hholds := Holds.empty.execAll hbefore.proper (hbefore.roomy .empty)
    have hb := hholds.mono (Nat.zero_le _)
    obtain ⟨hproper, -, hrest⟩ := hpaced.behind
    rw [pending_of_not_raw (isRaw_of_width hwidth)] at hrest
    obtain ⟨-, -, hne, hlen⟩ := exec_char hc hwidth (execAll ds .empty)
    have hkept := length_kept_le (execAll ds .empty).line
    have hqlen := hb.length_kept
    have hreach := reach_le hrest c.appended
    have hle := width_le hproper
    -- a character that finds room on the line would also fit behind its last space
    have hfull : maxLine < (execAll ds .empty).line.length + c.width := by
      unfold maxLine at *
      omega
    have hnext := hb.exec c hproper (.of_raw fun x hx _ => by
      rw [hx] at hwidth
      exact absurd hwidth (Nat.not_lt_zero 1))
    obtain ⟨l, hl, hllen⟩ := exists_long (exec_broken hb hproper hc hwidth hfull)
      (space_notMem_kept _) hne (Nat.le_trans hqlen (Nat.sub_le _ _)) hnext hrest hes
      (Nat.not_le.mp hlong)
    exact absurd (hlines.2.2 l hl) (Nat.not_le.mpr hllen)
  · exact linesAll_le (k := 0) (.inl (Nat.zero_le _)) .empty hcs.paced hcs.plain

theorem Orderly.nil : Orderly [] := ⟨trivial, List.forall_mem_nil _⟩

theorem Orderly.append {cs ds : List Cmd} (h : Orderly cs) (h' : Orderly ds) :
    Orderly (cs ++ ds) :=
  ⟨h.paced.append h'.paced, List.forall_mem_append.mpr ⟨h.plain, h'.plain⟩⟩

theorem Orderly.flatten {ps : List (List Cmd)} (h : ∀ p ∈ ps, Orderly p) : Orderly ps.flatten := by
  induction ps with
  | nil => exact .nil
  | cons p ps ih =>
    obtain ⟨hp, hps⟩ := List.forall_mem_cons.mp h
    exact hp.append (ih hps)

/-- A call that is not a byte of a character. -/
theorem Orderly.single {c : Cmd} (hproper : c.Proper) (hplain : c.Plain) (hraw : c.isRaw = false) :
    Orderly [c] := by
  refine ⟨⟨hproper, fun x hx => ?_, trivial⟩, List.forall_mem_singleton.mpr hplain⟩
  rw [hx] at hraw
  cases hraw

theorem orderly_bytes (s : List UInt8) : Orderly (s.map .byte) := by
  induction s with
  | nil => exact .nil
  | cons c s ih =>
    have hbyte : Orderly [.byte c] := .single trivial trivial rfl
    exact hbyte.append ih

/-- A character, or the part of it that there is. -/
theorem orderly_char {n : Nat} {c : UInt8} {t : List UInt8} (hproper : (Cmd.lead n c).Proper)
    (ht : t.length ≤ n - 1) : Orderly (.lead n c :: t.map .raw) := by
  refine ⟨⟨hproper, fun _ hraw => Cmd.noConfusion hraw, paced_raws ht⟩, ?_⟩
  refine List.forall_mem_cons.mpr ⟨trivial, fun d hd => ?_⟩
  obtain ⟨x, -, rfl⟩ := List.mem_map.mp hd
  trivial

end LineBuf
