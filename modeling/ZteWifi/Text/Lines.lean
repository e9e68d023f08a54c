import ZteWifi.Text.LineBuf

/-!
# The lines that are written

What the routines of the line buffer write is a sequence of lines, each ended by a line feed of
`wrap_line` or `flush_line`; a line feed that was appended as a byte ends none.
-/

open Ascii

namespace LineBuf

abbrev Line := List UInt8

/-! ## 1. Breaking a line -/

/-- What `wrap_line` writes of a line, and what it keeps of it. -/
def breakLine (l : Line) : Line × Line :=
  match lastSpace 0 none l with
  | none => (l, [])
  | some sp => ((l.take sp).rdropWhile (· = space), (l.drop (sp + 1)).dropWhile (· = space))

theorem wrapLine_eq (b : LineBuf) : wrapLine b =
    ⟨(breakLine b.line).2, b.truncated, b.stdout ++ (breakLine b.line).1 ++ [nl]⟩ := by
  unfold wrapLine breakLine
  cases lastSpace 0 none b.line <;> rfl

theorem lastSpace_of_notMem {i : Nat} {sp : Option Nat} {l : Line} (h : space ∉ l) :
    lastSpace i sp l = sp := by
  induction l generalizing i with
  | nil => rfl
  | cons c l ih =>
    rw [List.mem_cons, not_or] at h
    rw [lastSpace, if_neg (Ne.symm h.1), ih h.2]

/-- The scan of `wrap_line` finds the last space. -/
theorem lastSpace_append {p q : Line} (hq : space ∉ q) (i : Nat) (sp : Option Nat) :
    lastSpace i sp (p ++ space :: q) = some (i + p.length) := by
  induction p generalizing i sp with
  | nil =>
    rw [List.nil_append, lastSpace, if_pos rfl, lastSpace_of_notMem hq]
    rfl
  | cons c p ih =>
    rw [List.cons_append, lastSpace, ih, List.length_cons, Nat.add_assoc, Nat.add_comm 1]

theorem exists_lastSpace {l : Line} (h : space ∈ l) : ∃ p q, l = p ++ space :: q ∧ space ∉ q := by
  induction l with
  | nil => cases h
  | cons c l ih =>
    by_cases hl : space ∈ l
    · obtain ⟨p, q, rfl, hq⟩ := ih hl
      exact ⟨c :: p, q, rfl, hq⟩
    · have hc : space = c := (List.mem_cons.mp h).resolve_right hl
      exact ⟨[], l, by rw [hc]; rfl, hl⟩

theorem breakLine_of_notMem {l : Line} (h : space ∉ l) : breakLine l = (l, []) := by
  rw [breakLine, lastSpace_of_notMem h]

/-- The line is broken at its last space, and what stands behind it is kept. -/
theorem breakLine_append {p q : Line} (hq : space ∉ q) :
    breakLine (p ++ space :: q) = (p.rdropWhile (· = space), q) := by
  have hdrop : (p ++ space :: q).drop (p.length + 1) = q := by
    rw [← List.drop_drop, List.drop_left]
    rfl
  have hkeep : q.dropWhile (· = space) = q := by
    cases q with
    | nil => rfl
    | cons c q =>
      have hc : c ≠ space := (List.ne_of_not_mem_cons hq).symm
      exact List.dropWhile_cons_of_neg (by simpa using hc)
  rw [breakLine, lastSpace_append hq, Nat.zero_add]
  simp only [List.take_left, hdrop, hkeep]

theorem breakLine_cases (l : Line) : (space ∉ l ∧ breakLine l = (l, [])) ∨
    ∃ p q, l = p ++ space :: q ∧ space ∉ q ∧ breakLine l = (p.rdropWhile (· = space), q) := by
  by_cases h : space ∈ l
  · obtain ⟨p, q, rfl, hq⟩ := exists_lastSpace h
    exact .inr ⟨p, q, rfl, hq, breakLine_append hq⟩
  · exact .inl ⟨h, breakLine_of_notMem h⟩

/-- What is kept has no space. -/
theorem space_notMem_kept (l : Line) : space ∉ (breakLine l).2 := by
  rcases breakLine_cases l with ⟨-, heq⟩ | ⟨p, q, -, hq, heq⟩
  · rw [heq]
    exact List.not_mem_nil
  · rw [heq]
    exact hq

theorem length_kept_le (l : Line) : (breakLine l).2.length ≤ l.length - 1 := by
  rcases breakLine_cases l with ⟨-, heq⟩ | ⟨p, q, rfl, -, heq⟩
  · rw [heq]
    exact Nat.zero_le _
  · rw [heq, List.length_append, List.length_cons]
    show q.length ≤ _
    omega

theorem length_rdropWhile_le (p : UInt8 → Bool) (l : Line) : (l.rdropWhile p).length ≤ l.length :=
  (List.rdropWhile_prefix p l).length_le

theorem length_written_le (l : Line) : (breakLine l).1.length ≤ l.length := by
  rcases breakLine_cases l with ⟨-, heq⟩ | ⟨p, q, rfl, -, heq⟩
  · rw [heq]
  · rw [heq, List.length_append]
    exact Nat.le_trans (length_rdropWhile_le _ p) (Nat.le_add_right _ _)

/-! ## 2. The lines of a call -/

/-- The line that is written to make room for a character of `n` bytes. -/
def roomLines (n : Nat) (l : Line) : List Line :=
  if l.length + n > maxLine then [(breakLine l).1] else []

/-- The line that `flush_line` writes. -/
def flushLines (l : Line) : List Line :=
  if l.rdropWhile (· = space) = [] then [] else [l.rdropWhile (· = space)]

/-- The lines that `append_str` writes, after the loop of `appendStrLoop`. -/
def strLines : Nat → List UInt8 → LineBuf → List Line
  | _, [], _ => []
  | 0, c :: s, b =>
    if c < 0x80 then roomLines 1 b.line ++ strLines 0 s (appendByte c b)
    else
      roomLines (utf8CharLen c) b.line ++
        strLines (utf8CharLen c - 1) s (appendByteNc c (reserve (utf8CharLen c) b))
  | n + 1, c :: s, b => strLines n s (appendByteNc c b)

def lines : Cmd → LineBuf → List Line
  | .byte _, b => roomLines 1 b.line
  | .raw _, _ => []
  | .lead n _, b => roomLines n b.line
  | .str s, b => strLines 0 s b
  | .space, b => if b.line ≠ [] ∧ b.line.getLast? ≠ some space then roomLines 1 b.line else []
  | .utf8 cp, b => roomLines (utf8Bytes cp).length b.line
  | .indent _, b => flushLines b.line
  | .flush, b => flushLines b.line

/-- The lines that a list of calls writes. -/
def linesAll : List Cmd → LineBuf → List Line
  | [], _ => []
  | c :: cs, b => lines c b ++ linesAll cs (exec c b)

theorem linesAll_append (cs ds : List Cmd) (b : LineBuf) :
    linesAll (cs ++ ds) b = linesAll cs b ++ linesAll ds (execAll cs b) := by
  induction cs generalizing b with
  | nil => rfl
  | cons c cs ih => rw [List.cons_append, linesAll, linesAll, ih, List.append_assoc, execAll_cons]

/-- Lines as they are printed. -/
def printed (ls : List Line) : List UInt8 := ls.flatMap (· ++ [nl])

theorem printed_append (ls ms : List Line) : printed (ls ++ ms) = printed ls ++ printed ms :=
  List.flatMap_append

theorem appendByteNc_stdout (c : UInt8) (b : LineBuf) : (appendByteNc c b).stdout = b.stdout := by
  unfold appendByteNc
  split <;> rfl

theorem appendAllNc_stdout (cs : List UInt8) (b : LineBuf) :
    (appendAllNc cs b).stdout = b.stdout := by
  induction cs generalizing b with
  | nil => rfl
  | cons c cs ih => exact (ih _).trans (appendByteNc_stdout c b)

theorem reserve_stdout (n : Nat) (b : LineBuf) :
    (reserve n b).stdout = b.stdout ++ printed (roomLines n b.line) := by
  unfold reserve roomLines
  split
  · rw [wrapLine_eq, printed, List.flatMap_singleton, List.append_assoc]
  · exact (List.append_nil _).symm

theorem appendByte_eq (c : UInt8) (b : LineBuf) : appendByte c b = appendByteNc c (reserve 1 b) := by
  have hfull : b.line.length ≥ maxLine ↔ b.line.length + 1 > maxLine := Nat.lt_succ_iff.symm
  rw [appendByte, reserve]
  simp only [hfull]

theorem flushLine_line (b : LineBuf) : (flushLine b).line = [] := by
  unfold flushLine
  dsimp only
  split <;> rfl

theorem flushLine_stdout (b : LineBuf) :
    (flushLine b).stdout = b.stdout ++ printed (flushLines b.line) := by
  unfold flushLine flushLines
  dsimp only
  split
  · exact (List.append_nil _).symm
  · rw [printed, List.flatMap_singleton, List.append_assoc]

theorem appendStrLoop_stdout (n : Nat) (s : List UInt8) (b : LineBuf) :
    (appendStrLoop n s b).stdout = b.stdout ++ printed (strLines n s b) := by
  induction s generalizing n b with
  | nil => cases n <;> exact (List.append_nil _).symm
  | cons c s ih =>
    cases n with
    | succ n => rw [appendStrLoop, strLines, ih, appendByteNc_stdout]
    | zero =>
      rw [appendStrLoop, strLines]
      split
      · rw [ih, printed_append, ← List.append_assoc, appendByte_eq, appendByteNc_stdout,
          reserve_stdout]
      · rw [ih, printed_append, ← List.append_assoc, appendByteNc_stdout, reserve_stdout]

theorem exec_stdout (c : Cmd) (b : LineBuf) :
    (exec c b).stdout = b.stdout ++ printed (lines c b) := by
  cases c with
  | byte c =>
    show (appendByte c b).stdout = _
    rw [appendByte_eq, appendByteNc_stdout, reserve_stdout, lines]
  | raw c =>
    show (appendByteNc c b).stdout = _
    rw [appendByteNc_stdout]
    exact (List.append_nil _).symm
  | lead n c =>
    show (appendByteNc c (reserve n b)).stdout = _
    rw [appendByteNc_stdout, reserve_stdout, lines]
  | str s => exact appendStrLoop_stdout 0 s b
  | space =>
    show (appendSpace b).stdout = _
    rw [appendSpace, lines]
    split
    · rw [appendByte_eq, appendByteNc_stdout, reserve_stdout]
    · exact (List.append_nil _).symm
  | utf8 cp =>
    show (appendUtf8 cp b).stdout = _
    rw [appendUtf8, appendAllNc_stdout, reserve_stdout, lines]
  | indent d =>
    show (outputIndent d b).stdout = _
    rw [outputIndent, appendAllNc_stdout, lines]
    split
    · exact flushLine_stdout b
    · next hlen =>
      have hnil : b.line = [] := List.eq_nil_of_length_eq_zero (Nat.eq_zero_of_not_pos hlen)
      rw [hnil]
      exact (List.append_nil _).symm
  | flush => exact flushLine_stdout b

/-- Nothing is written but lines. -/
theorem execAll_stdout (cs : List Cmd) (b : LineBuf) :
    (execAll cs b).stdout = b.stdout ++ printed (linesAll cs b) := by
  induction cs generalizing b with
  | nil => exact (List.append_nil _).symm
  | cons c cs ih => rw [execAll_cons, ih, exec_stdout, linesAll, printed_append, List.append_assoc]

/-! ## 3. What was written before -/

/-- The same line, behind an output that has already been written. -/
def after (tr : Bool) (out : List UInt8) (b : LineBuf) : LineBuf :=
  ⟨b.line, tr || b.truncated, out ++ b.stdout⟩

section
variable (tr : Bool) (out : List UInt8)

theorem appendByteNc_after (c : UInt8) (b : LineBuf) :
    appendByteNc c (b.after tr out) = (appendByteNc c b).after tr out := by
  unfold appendByteNc
  by_cases hfull : b.line.length + 1 ≥ lineCap
  · rw [if_pos hfull]
    refine (if_pos hfull).trans ?_
    simp only [after, Bool.or_true]
  · rw [if_neg hfull]
    exact if_neg hfull

theorem appendAllNc_after (cs : List UInt8) (b : LineBuf) :
    appendAllNc cs (b.after tr out) = (appendAllNc cs b).after tr out := by
  induction cs generalizing b with
  | nil => rfl
  | cons c cs ih =>
    show appendAllNc cs (appendByteNc c (b.after tr out)) = _
    rw [appendByteNc_after]
    exact ih _

theorem reserve_after (n : Nat) (b : LineBuf) :
    reserve n (b.after tr out) = (reserve n b).after tr out := by
  unfold reserve
  by_cases hfull : b.line.length + n > maxLine
  · rw [if_pos hfull]
    refine (if_pos hfull).trans ?_
    simp only [wrapLine_eq, after, List.append_assoc]
  · rw [if_neg hfull]
    exact if_neg hfull

theorem appendByte_after (c : UInt8) (b : LineBuf) :
    appendByte c (b.after tr out) = (appendByte c b).after tr out := by
  rw [appendByte_eq, appendByte_eq, reserve_after, appendByteNc_after]

theorem flushLine_after (b : LineBuf) :
    flushLine (b.after tr out) = (flushLine b).after tr out := by
  rw [flushLine, flushLine]
  by_cases hnil : b.line.rdropWhile (· = space) = []
  · rw [if_pos hnil]
    exact if_pos hnil
  · rw [if_neg hnil]
    refine (if_neg hnil).trans ?_
    simp only [after, List.append_assoc]

theorem appendStrLoop_after (n : Nat) (s : List UInt8) (b : LineBuf) :
    appendStrLoop n s (b.after tr out) = (appendStrLoop n s b).after tr out := by
  induction s generalizing n b with
  | nil => cases n <;> rfl
  | cons c s ih =>
    cases n with
    | succ n => rw [appendStrLoop, appendStrLoop, appendByteNc_after, ih]
    | zero =>
      rw [appendStrLoop, appendStrLoop]
      split
      · rw [appendByte_after, ih]
      · rw [reserve_after, appendByteNc_after, ih]

/-- No routine looks at what has been written. -/
theorem exec_after (c : Cmd) (b : LineBuf) : exec c (b.after tr out) = (exec c b).after tr out := by
  cases c with
  | byte c => exact appendByte_after tr out c b
  | raw c => exact appendByteNc_after tr out c b
  | lead n c =>
    show appendByteNc c (reserve n (b.after tr out)) = _
    rw [reserve_after, appendByteNc_after]
    rfl
  | str s => exact appendStrLoop_after tr out 0 s b
  | space =>
    show appendSpace (b.after tr out) = (appendSpace b).after tr out
    unfold appendSpace
    by_cases hadd : b.line ≠ [] ∧ b.line.getLast? ≠ some space
    · rw [if_pos hadd, ← appendByte_after]
      exact if_pos hadd
    · rw [if_neg hadd]
      exact if_neg hadd
  | utf8 cp =>
    show appendUtf8 cp (b.after tr out) = (appendUtf8 cp b).after tr out
    rw [appendUtf8, appendUtf8, reserve_after, appendAllNc_after]
  | indent d =>
    show outputIndent d (b.after tr out) = (outputIndent d b).after tr out
    unfold outputIndent
    rw [← appendAllNc_after]
    by_cases hlen : b.line.length > 0
    · rw [if_pos hlen, ← flushLine_after]
      exact congrArg _ (if_pos hlen)
    · rw [if_neg hlen]
      exact congrArg _ (if_neg hlen)
  | flush => exact flushLine_after tr out b

theorem execAll_after (cs : List Cmd) (b : LineBuf) :
    execAll cs (b.after tr out) = (execAll cs b).after tr out := by
  induction cs generalizing b with
  | nil => rfl
  | cons c cs ih => rw [execAll_cons, execAll_cons, exec_after, ih]

end

end LineBuf
