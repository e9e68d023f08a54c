import ZteWifi.Lib.Prog
import ZteWifi.Text.LineBuf
import ZteWifi.J2t.Reader

/-!
# The streaming converter `j2t.c`

The functions of the source under their own names, as programs on the static variables.  A function
that reports failure by `-1` is a `Prog` that gives up; the caller's `return -1` is then the rest of
the program not being run.  The recursion of `parse_value`, `parse_object` and `parse_array` takes a
bound on its depth as first argument, which `run` chooses from the length of the input; that it is
never reached is proved in `J2t.Agreement`.
-/

open Ascii

namespace J2t

/-- `MAX_DEPTH` -/
@[simp] abbrev maxDepth : Nat := 24

/-- What a run leaves behind: the exit status, both output streams and the flag `truncated`. -/
structure Exit where
  status : Nat
  stdout : List UInt8
  truncated : Bool
  stderr : String
  deriving DecidableEq, Repr

/-- A run without its messages. -/
structure Outcome where
  status : Nat
  stdout : List UInt8
  truncated : Bool
  deriving DecidableEq, Repr

def Exit.outcome (e : Exit) : Outcome := ⟨e.status, e.stdout, e.truncated⟩

def isNumChar (c : UInt8) : Bool :=
  isdigit c || c = minus || c = plus || c = dot || c = 0x65 || c = 0x45

/-- The code point of a surrogate pair. -/
def surrogatePair (hi lo : Nat) : Nat := 0x10000 + ((hi - 0xD800) <<< 10) + (lo - 0xDC00)

namespace Stream

/-- The static variables.  `active` and `peak` are no variables of the source: they count the calls
of `parse_object` and `parse_array` that are past their depth guard and have not returned, now and
at most so far. -/
structure St where
  rd : Reader
  out : LineBuf
  active : Nat
  peak : Nat

def St.start (input : List UInt8) : St := ⟨⟨[], 0, input⟩, LineBuf.empty, 0, 0⟩

/-! ## 1. Single-byte input and the line buffer -/

def rdGet : Prog St (Option UInt8) :=
  .modifyGet fun st => (st.rd.rdGet.1, { st with rd := st.rd.rdGet.2 })

def rdPeek : Prog St (Option UInt8) :=
  .modifyGet fun st => (st.rd.rdPeek.1, { st with rd := st.rd.rdPeek.2 })

def rdUnget (c : Option UInt8) : Prog St Unit := .modify fun st => { st with rd := st.rd.rdUnget c }

/-- A call of a line-buffer routine. -/
def out (c : LineBuf.Cmd) : Prog St Unit := .modify fun st => { st with out := LineBuf.exec c st.out }

/-- Bytes still to be read; a loop that reads at least one of them each time round ends within
this bound. -/
def Reader.size (r : Reader) : Nat := r.pb.length + r.input.length

/-! ## 2. Lexical functions -/

def skipWsLoop : Nat → Prog St Unit
  | 0 => .diverge
  | n + 1 => do
    let c ← rdPeek
    match c with
    | none => pure ()
    | some c =>
      if isspace c then do
        let _ ← rdGet
        skipWsLoop n
      else pure ()

def skipWs : Prog St Unit := do
  let st ← .get
  skipWsLoop (Reader.size st.rd + 1)

/-- `match_lit`: the bytes that agree are consumed even when the answer is no. -/
def matchLit : List UInt8 → Prog St Bool
  | [] => do
    let c ← rdPeek
    match c with
    | none => pure true
    -- no letter or digit may follow the literal
    | some c => pure (!isalnum c)
  | s :: lit => do
    let c ← rdPeek
    if c = some s then do
      let _ ← rdGet
      matchLit lit
    else pure false

/-- The loops of `parse_unicode_escape` that read the rest of four hex digits into `hex` and add
them up in `v`. -/
def readHex : Nat → List UInt8 → Nat → Prog St (List UInt8 × Nat)
  | 0, hex, v => pure (hex, v)
  | n + 1, hex, v => do
    let c ← rdGet
    match c with
    | none => .fail
    | some c =>
      match hexDigit c with
      | none => .fail
      | some d => readHex n (hex ++ [c]) (v * 16 + d)

/-- Push the escape with the four digits `hex` back, last byte first. -/
def ungetEscape (hex : List UInt8) : Prog St Unit := do
  rdUnget hex[3]?
  rdUnget hex[2]?
  rdUnget hex[1]?
  rdUnget hex[0]?
  rdUnget (some 0x75)
  rdUnget (some backslash)

/-- The part of `parse_unicode_escape` that has read `\u` after the high surrogate `v`. -/
def readLowSurrogate (v : Nat) : Prog St Unit := do
  let (hex, lo) ← readHex 4 [] 0
  -- no low surrogate: only the high one is dropped, and the escape is read again
  if lo < 0xDC00 ∨ 0xDFFF < lo then ungetEscape hex
  else out (.utf8 (surrogatePair v lo))

/-- The branch of `parse_unicode_escape` for the high surrogate `v`: unless a low one follows, it is
dropped. -/
def parseLowSurrogate (v : Nat) : Prog St Unit := do
  let c ← rdPeek
  -- an unpaired high surrogate is dropped
  if c ≠ some backslash then pure ()
  else do
    let _ ← rdGet
    let c ← rdPeek
    if c ≠ some 0x75 then rdUnget (some backslash)
    else do
      let _ ← rdGet
      readLowSurrogate v

def parseUnicodeEscape : Prog St Unit := do
  let (_, v) ← readHex 4 [] 0
  if 0xD800 ≤ v ∧ v ≤ 0xDBFF then parseLowSurrogate v
  else if 0xDC00 ≤ v ∧ v ≤ 0xDFFF then pure ()    -- lone low surrogate: dropped
  else out (.utf8 v)

/-- The `switch` on the byte after a backslash. -/
def emitEscape (c : UInt8) : Prog St Unit :=
  if c = quote then out (.byte quote)
  else if c = backslash then out (.byte backslash)
  else if c = slash then out (.byte slash)
  else if c = 0x62 then out (.byte 0x08)
  else if c = 0x66 then out (.byte 0x0C)
  -- line feed and tabulator become a space, a carriage return nothing
  else if c = 0x6E then out .space
  else if c = 0x74 then out .space
  else if c = 0x72 then pure ()
  else if c = 0x75 then parseUnicodeEscape
  -- any other byte stands for itself
  else out (.byte c)

/-- The continuation bytes of a raw multi-byte character, taken whatever they are. -/
def emitContinuation : Nat → Prog St Unit
  | 0 => pure ()
  | n + 1 => do
    let cc ← rdGet
    match cc with
    | none => .fail
    | some cc => do
      out (.raw cc)
      emitContinuation n

def emitLoop : Nat → Prog St Unit
  | 0 => .diverge
  | n + 1 => do
    let c ← rdGet
    match c with
    | none => .fail
    | some c =>
      if c = quote then pure ()
      else if c = backslash then do
        let e ← rdGet
        match e with
        | none => .fail
        | some e => do
          emitEscape e
          emitLoop n
      else if c < 0x20 then do
        out .space
        emitLoop n
      else if c < 0x80 then do
        out (.byte c)
        emitLoop n
      else do
        -- the first byte tells how many bytes are read as they are
        out (.lead (utf8CharLen c) c)
        emitContinuation (utf8CharLen c - 1)
        emitLoop n

def emitJsonString : Prog St Unit := do
  let c ← rdGet
  if c ≠ some quote then .fail
  else do
    let st ← .get
    emitLoop (Reader.size st.rd + 1)

def parseNumberLoop : Nat → Prog St Unit
  | 0 => .diverge
  | n + 1 => do
    let c ← rdPeek
    match c with
    | none => pure ()
    | some c =>
      if isNumChar c then do
        let _ ← rdGet
        out (.byte c)
        parseNumberLoop n
      else pure ()

def parseNumber : Prog St Unit := do
  let st ← .get
  parseNumberLoop (Reader.size st.rd + 1)

/-- `if (!match_lit(s)) return -1; append_str(s); return 0;` -/
def parseLit (s : List UInt8) : Prog St Unit := do
  let ok ← matchLit s
  if ok then out (.str s) else .fail

/-! ## 3. The recursive parser -/

/-- A call of `parse_object` or `parse_array` has passed its guard. -/
def enter : Prog St Unit :=
  .modify fun st => { st with active := st.active + 1, peak := max st.peak (st.active + 1) }

/-- It returns 0.  (A return of -1 unwinds to `main` without another call.) -/
def leave : Prog St Unit := .modify fun st => { st with active := st.active - 1 }

mutual

def parseValue : Nat → Nat → Prog St Unit
  | 0, _ => .diverge
  | fuel + 1, depth => do
    skipWs
    let c ← rdPeek
    match c with
    | none => .fail
    | some c =>
      if c = lbrace then parseObject fuel depth
      else if c = lbracket then parseArray fuel depth
      else if c = quote then emitJsonString
      else if c = 0x74 then parseLit (bytes "true")
      else if c = 0x66 then parseLit (bytes "false")
      else if c = 0x6E then parseLit (bytes "null")
      else if isdigit c ∨ c = minus then parseNumber
      else .fail
termination_by structural fuel => fuel

def parseObject : Nat → Nat → Prog St Unit
  | 0, _ => .diverge
  | fuel + 1, depth =>
    if depth > maxDepth then .fail
    else do
      enter
      let _ ← rdGet                               -- the '{'
      skipWs
      let c ← rdPeek
      if c = some rbrace then do
        let _ ← rdGet
        leave
      else parseMembers fuel depth
termination_by structural fuel => fuel

/-- The loop of `parse_object` over the members, and what follows it. -/
def parseMembers : Nat → Nat → Prog St Unit
  | 0, _ => .diverge
  | fuel + 1, depth => do
    skipWs
    let c ← rdPeek
    if c ≠ some quote then .fail
    else do
      out (.indent depth)
      emitJsonString                              -- key
      skipWs
      let c ← rdPeek
      if c ≠ some colon then .fail
      else do
        let _ ← rdGet
        skipWs
        -- an object or array starts a line of its own, one level deeper
        out (.str (bytes ": "))
        let c ← rdPeek
        (if c = some lbrace ∨ c = some lbracket then do
          out .flush                              -- the key has a line of its own
          parseValue fuel (depth + 1)
        else do
          parseValue fuel depth
          out .flush)
        skipWs
        let c ← rdPeek
        if c = some comma then do
          let _ ← rdGet
          parseMembers fuel depth
        else do
          skipWs
          let c ← rdPeek
          if c ≠ some rbrace then .fail
          else do
            let _ ← rdGet
            leave
termination_by structural fuel => fuel

def parseArray : Nat → Nat → Prog St Unit
  | 0, _ => .diverge
  | fuel + 1, depth =>
    if depth > maxDepth then .fail
    else do
      enter
      let _ ← rdGet                               -- the '['
      skipWs
      let c ← rdPeek
      if c = some rbracket then do
        let _ ← rdGet
        leave
      else parseElements fuel depth
termination_by structural fuel => fuel

/-- The loop of `parse_array` over the elements, and what follows it.  Unlike the loop over the
members it looks ahead without skipping white space first. -/
def parseElements : Nat → Nat → Prog St Unit
  | 0, _ => .diverge
  | fuel + 1, depth => do
    out (.indent depth)
    out (.str (bytes "- "))
    let c ← rdPeek
    (if c = some lbrace ∨ c = some lbracket then do
      out .flush                                  -- the '-' has a line of its own
      parseValue fuel (depth + 1)
    else do
      parseValue fuel depth
      out .flush)
    skipWs
    let c ← rdPeek
    if c = some comma then do
      let _ ← rdGet
      parseElements fuel depth
    else do
      skipWs
      let c ← rdPeek
      if c ≠ some rbracket then .fail
      else do
        let _ ← rdGet
        leave
termination_by structural fuel => fuel

end

/-- The bound `run` puts on the recursion: three calls for each byte of input. -/
def callBound (input : List UInt8) : Nat := 3 * input.length + 2

/-- `main` on a stream with the given bytes, and the largest number of calls of `parse_object` and
`parse_array` that were active at once on the way. -/
def run (input : List UInt8) : Option (Exit × Nat) := do
  let (_, st) ← skipWs (St.start input)
  if st.rd.rdPeek.1 = none then
    return (⟨1, st.out.stdout, st.out.truncated, "empty input\n"⟩, st.peak)
  let (ok, st) ← parseValue (callBound input) 0 { st with rd := st.rd.rdPeek.2 }
  match ok with
  | none =>
    return (⟨1, st.out.stdout, st.out.truncated,
      "json parse error at byte " ++ toString st.rd.pos ++ "\n"⟩, st.peak)
  | some _ =>
    let (_, st) ← skipWs st
    if st.rd.rdPeek.1 ≠ none then
      return (⟨1, st.out.stdout, st.out.truncated,
        "trailing data at byte " ++ toString st.rd.rdPeek.2.pos ++ "\n"⟩, st.peak)
    let out := LineBuf.flushLine st.out
    return (⟨0, out.stdout, out.truncated, out.truncationWarning⟩, st.peak)

def main (input : List UInt8) : Option Exit := (run input).map Prod.fst

def peakCalls (input : List UInt8) : Option Nat := (run input).map Prod.snd

end Stream

end J2t
