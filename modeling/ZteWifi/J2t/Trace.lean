import ZteWifi.J2t.Stream

/-!
# What the converter does, as a function of the unread bytes

The abstract machine of this development: the input is a list of bytes, the lexical functions are
list functions, a surrogate pair is looked at in place, and the output is the list of commands given
to the line buffer.  `j2t.c` and `j2t非流式.c` both refine it (`J2t.StreamRefines`,
`J2t.WholeRefines`); the results about the language and the layout are proved here.
-/

open Ascii LineBuf

namespace J2t.Trace

structure St where
  rest : List UInt8
  cmds : List Cmd
  active : Nat
  peak : Nat

def St.start (input : List UInt8) : St := ⟨input, [], 0, 0⟩

def emit (cs : List Cmd) : Prog St Unit := .modify fun st => { st with cmds := st.cmds ++ cs }

def peek : Prog St (Option UInt8) := .modifyGet fun st => (st.rest.head?, st)

def next : Prog St Unit := .modify fun st => { st with rest := st.rest.tail }

def skipWs : Prog St Unit := .modify fun st => { st with rest := st.rest.dropWhile isspace }

/-! ## 1. Strings, literals and numbers -/

abbrev isHighSurrogate (v : Nat) : Prop := 0xD800 ≤ v ∧ v ≤ 0xDBFF

abbrev isLowSurrogate (v : Nat) : Prop := 0xDC00 ≤ v ∧ v ≤ 0xDFFF

/-- `n` hex digits, continuing the value `v`. -/
def hexDigits : Nat → Nat → List UInt8 → Option (Nat × List UInt8)
  | 0, v, s => some (v, s)
  | _ + 1, _, [] => none
  | n + 1, v, c :: s =>
    match hexDigit c with
    | none => none
    | some d => hexDigits n (v * 16 + d) s

/-- What scanning a token gives: the commands, and the input behind the token unless it is
malformed. -/
abbrev Scanned := List Cmd × Option (List UInt8)

/-- What follows the escape of the high surrogate `v`: an escape that is no low surrogate is left
alone. -/
def lowSurrogate (v : Nat) (s : List UInt8) : Scanned :=
  if s.take 2 = [backslash, 0x75] then
    match hexDigits 4 0 (s.drop 2) with
    | none => ([], none)
    | some (lo, s') => if isLowSurrogate lo then ([.utf8 (surrogatePair v lo)], some s')
      else ([], some s)
  else ([], some s)

/-- What follows `\u`. -/
def unicodeEscape (s : List UInt8) : Scanned :=
  match hexDigits 4 0 s with
  | none => ([], none)
  | some (v, s) =>
    if isHighSurrogate v then lowSurrogate v s
    else if isLowSurrogate v then ([], some s)
    else ([.utf8 v], some s)

/-- The commands of the escape `\c` for `c` other than `u`. -/
def escapeCmds (c : UInt8) : List Cmd :=
  if c = 0x62 then [.byte 0x08]
  else if c = 0x66 then [.byte 0x0C]
  else if c = 0x6E ∨ c = 0x74 then [.space]
  else if c = 0x72 then []
  else [.byte c]

/-- The commands of a character given by its bytes. -/
def charCmds (c : UInt8) (cont : List UInt8) : List Cmd :=
  .lead (utf8CharLen c) c :: cont.map .raw

theorem lowSurrogate_escape (v : Nat) (s : List UInt8) :
    lowSurrogate v (backslash :: 0x75 :: s) =
      match hexDigits 4 0 s with
      | none => ([], none)
      | some (lo, s') => if isLowSurrogate lo then ([.utf8 (surrogatePair v lo)], some s')
        else ([], some (backslash :: 0x75 :: s)) := by
  rw [lowSurrogate, if_pos (by rfl)]
  rfl

theorem surrogatePair_eq (hi lo : Nat) :
    surrogatePair hi lo = 0x10000 + (hi - 0xD800) * 0x400 + (lo - 0xDC00) := by
  have hshift : ∀ high low : Nat, 0x10000 + high <<< 10 + low = 0x10000 + high * 0x400 + low := by
    intro high low
    simp only [Nat.shiftLeft_eq, Nat.reducePow]
  exact hshift _ _

theorem surrogatePair_valid {hi lo : Nat} (hhi : isHighSurrogate hi) (hlo : isLowSurrogate lo) :
    (surrogatePair hi lo).isValidChar := by
  rw [surrogatePair_eq]
  exact .inr ⟨by omega, by omega⟩

theorem hexDigits_lt {n v w : Nat} {s s' : List UInt8} (h : hexDigits n v s = some (w, s')) :
    w < (v + 1) * 16 ^ n := by
  induction n generalizing v s with
  | zero =>
    simp only [hexDigits, Option.some.injEq, Prod.mk.injEq] at h
    omega
  | succ n ih =>
    cases s with
    | nil => cases h
    | cons c s =>
      simp only [hexDigits] at h
      split at h
      · cases h
      · next d hd =>
        have hstep : v * 16 + d + 1 ≤ (v + 1) * 16 := by
          have hlt := hexDigit_lt hd
          omega
        refine Nat.lt_of_lt_of_le (ih h) ?_
        rw [Nat.pow_succ', ← Nat.mul_assoc]
        exact Nat.mul_le_mul_right _ hstep

theorem hexDigits_length {n v w : Nat} {s s' : List UInt8} (h : hexDigits n v s = some (w, s')) :
    s.length = s'.length + n := by
  induction n generalizing v s with
  | zero =>
    simp only [hexDigits, Option.some.injEq, Prod.mk.injEq] at h
    rw [h.2]
    rfl
  | succ n ih =>
    cases s with
    | nil => cases h
    | cons c s =>
      simp only [hexDigits] at h
      split at h
      · cases h
      · rw [List.length_cons, ih h]
        rfl

theorem hexDigits_rest {n v w : Nat} {s s' : List UInt8} (h : hexDigits n v s = some (w, s')) :
    s' = s.drop n := by
  induction n generalizing v s with
  | zero =>
    simp only [hexDigits, Option.some.injEq, Prod.mk.injEq] at h
    exact h.2.symm
  | succ n ih =>
    cases s with
    | nil => cases h
    | cons c s =>
      simp only [hexDigits] at h
      split at h
      · cases h
      · exact ih h

theorem lowSurrogate_length {v : Nat} {s s' : List UInt8} (h : (lowSurrogate v s).2 = some s') :
    s'.length ≤ s.length := by
  unfold lowSurrogate at h
  split at h
  · split at h
    · cases h
    · next lo s₂ h₂ =>
      have hl₂ := hexDigits_length h₂
      rw [List.length_drop] at hl₂
      split at h <;> cases h <;> omega
  · cases h
    exact Nat.le_refl _

theorem unicodeEscape_length {s s' : List UInt8} (h : (unicodeEscape s).2 = some s') :
    s'.length < s.length := by
  unfold unicodeEscape at h
  split at h
  · cases h
  · next v s₁ h₁ =>
    have hl₁ := hexDigits_length h₁
    split at h
    · have := lowSurrogate_length h
      omega
    · split at h <;> cases h <;> omega

/-- A string after its opening quote. -/
def stringBody (s : List UInt8) : Scanned :=
  match s with
  | [] => ([], none)
  | c :: s =>
    if c = quote then ([], some s)
    else if c = backslash then
      match s with
      | [] => ([], none)
      | e :: s =>
        if e = 0x75 then
          match _h : (unicodeEscape s).2 with
          | none => unicodeEscape s
          | some s' => ((unicodeEscape s).1 ++ (stringBody s').1, (stringBody s').2)
        else (escapeCmds e ++ (stringBody s).1, (stringBody s).2)
    else if c < 0x20 then (.space :: (stringBody s).1, (stringBody s).2)
    else if c < 0x80 then (.byte c :: (stringBody s).1, (stringBody s).2)
    else if s.length < utf8CharLen c - 1 then (charCmds c s, none)
    else
      let s' := s.drop (utf8CharLen c - 1)
      (charCmds c (s.take (utf8CharLen c - 1)) ++ (stringBody s').1, (stringBody s').2)
termination_by s.length
decreasing_by
  · have := unicodeEscape_length _h
    simp only [List.length_cons]
    omega
  all_goals simp only [List.length_cons, List.length_drop]; omega

theorem stringBody_unicode (s : List UInt8) :
    stringBody (backslash :: 0x75 :: s) =
      match (unicodeEscape s).2 with
      | none => unicodeEscape s
      | some s' => ((unicodeEscape s).1 ++ (stringBody s').1, (stringBody s').2) := by
  rw [stringBody.eq_def]
  simp only [if_true]
  rw [if_neg (by decide)]
  split <;> next h => rw [h]

/-- Run on with the commands and the rest of a scanned token, or give up. -/
def token (scan : List UInt8 → Scanned) : Prog St Unit := fun st =>
  match scan st.rest with
  | (cs, none) => some (none, { st with cmds := st.cmds ++ cs })
  | (cs, some rest) => some (some (), { st with rest := rest, cmds := st.cmds ++ cs })

/-- A string, the opening quote included. -/
def string : Prog St Unit := token fun s => stringBody s.tail

/-- A literal that no letter or digit follows. -/
def scanLit (lit s : List UInt8) : Scanned :=
  if lit <+: s ∧ ¬ ((s.drop lit.length).head?.any isalnum) then
    ([.str lit], some (s.drop lit.length))
  else ([], none)

def lit (l : List UInt8) : Prog St Unit := token (scanLit l)

def scanNumber (s : List UInt8) : Scanned :=
  ((s.takeWhile isNumChar).map .byte, some (s.dropWhile isNumChar))

def number : Prog St Unit := token scanNumber

/-! ## 2. Values -/

def enter : Prog St Unit :=
  .modify fun st => { st with active := st.active + 1, peak := max st.peak (st.active + 1) }

def leave : Prog St Unit := .modify fun st => { st with active := st.active - 1 }

/-- The value of a member or an element.  A container starts on a line of its own, one level
deeper. -/
def child (value : Nat → Prog St Unit) (depth : Nat) : Prog St Unit := do
  let c ← peek
  if c = some lbrace ∨ c = some lbracket then do
    emit [.flush]
    value (depth + 1)
  else do
    value depth
    emit [.flush]

/-- The closing bracket of a container. -/
def close (bracket : UInt8) : Prog St Unit := do
  skipWs
  let c ← peek
  if c ≠ some bracket then .fail
  else do
    next
    leave

mutual

def value : Nat → Nat → Prog St Unit
  | 0, _ => .diverge
  | fuel + 1, depth => do
    skipWs
    let c ← peek
    match c with
    | none => .fail
    | some c =>
      if c = lbrace then object fuel depth
      else if c = lbracket then array fuel depth
      else if c = quote then string
      else if c = 0x74 then lit (bytes "true")
      else if c = 0x66 then lit (bytes "false")
      else if c = 0x6E then lit (bytes "null")
      else if isdigit c ∨ c = minus then number
      else .fail
termination_by structural fuel => fuel

def object : Nat → Nat → Prog St Unit
  | 0, _ => .diverge
  | fuel + 1, depth =>
    if depth > maxDepth then .fail
    else do
      enter
      next
      skipWs
      let c ← peek
      if c = some rbrace then do
        next
        leave
      else members fuel depth
termination_by structural fuel => fuel

def members : Nat → Nat → Prog St Unit
  | 0, _ => .diverge
  | fuel + 1, depth => do
    skipWs
    let c ← peek
    if c ≠ some quote then .fail
    else do
      emit [.indent depth]
      string
      skipWs
      let c ← peek
      if c ≠ some colon then .fail
      else do
        next
        skipWs
        emit [.str (bytes ": ")]
        child (value fuel) depth
        skipWs
        let c ← peek
        if c = some comma then do
          next
          members fuel depth
        else close rbrace
termination_by structural fuel => fuel

def array : Nat → Nat → Prog St Unit
  | 0, _ => .diverge
  | fuel + 1, depth =>
    if depth > maxDepth then .fail
    else do
      enter
      next
      skipWs
      let c ← peek
      if c = some rbracket then do
        next
        leave
      else elements fuel depth
termination_by structural fuel => fuel

def elements : Nat → Nat → Prog St Unit
  | 0, _ => .diverge
  | fuel + 1, depth => do
    emit [.indent depth]
    emit [.str (bytes "- ")]
    child (value fuel) depth
    skipWs
    let c ← peek
    if c = some comma then do
      next
      elements fuel depth
    else close rbracket
termination_by structural fuel => fuel

end

/-- A whole text: a value with nothing but white space around it. -/
def text (fuel : Nat) : Prog St Unit := do
  skipWs
  let c ← peek
  if c = none then .fail
  else do
    value fuel 0
    skipWs
    let c ← peek
    if c ≠ none then .fail else emit [.flush]

/-- The outcome of a run that has left this result and these commands. -/
def outcome (r : Option Unit) (cmds : List Cmd) : Outcome :=
  let out := execAll cmds .empty
  ⟨if r.isSome then 0 else 1, out.stdout, out.truncated⟩

def run (input : List UInt8) : Option (Option Unit × St) :=
  text (Stream.callBound input) (.start input)

end J2t.Trace
