import ZteWifi.J2t.Stream
import ZteWifi.Text.ReadAll

/-!
# The whole-buffer converter `j2t非流式.c`

The version that reads its input into memory first and parses it by index.  `g_buf[0 .. g_len)` is
the list `buf`; the cursor `p` and the line buffer are the state.
-/

open Ascii

namespace J2t.Whole

/-- The static variables that change during the parse. -/
structure St where
  p : Nat
  out : LineBuf

section
variable (buf : List UInt8)

/-! ## 1. Lexical functions -/

def advance (n : Nat) : Prog St Unit := .modify fun st => { st with p := st.p + n }

def out (c : LineBuf.Cmd) : Prog St Unit := .modify fun st => { st with out := LineBuf.exec c st.out }

/-- `p < g_len ? g_buf[p] : none` -/
def cur : Prog St (Option UInt8) := .modifyGet fun st => (buf[st.p]?, st)

/-- The cursor after the loop of `skip_ws`, which runs at most `n` times. -/
def skipWsFrom : Nat → Nat → Nat
  | 0, p => p
  | n + 1, p =>
    match buf[p]? with
    | none => p
    | some c => if isspace c then skipWsFrom n (p + 1) else p

def skipWs : Prog St Unit := .modify fun st => { st with p := skipWsFrom buf buf.length st.p }

/-- `match_lit`.  The literal holds no NUL, so `strncmp` compares `n` bytes. -/
def matchLit (p : Nat) (s : List UInt8) : Bool :=
  if p + s.length > buf.length then false
  else if (buf.drop p).take s.length ≠ s then false
  else
    match buf[p + s.length]? with
    | none => true
    | some c => !isalnum c

/-- The loop of `parse_hex4` with `n` digits to go at index `i`; `none` is `(unsigned)-1`. -/
def parseHex : Nat → Nat → Nat → Option Nat
  | 0, _, v => some v
  | n + 1, i, v =>
    match buf[i]? with
    | none => none
    | some c =>
      match hexDigit c with
      | none => none
      | some d => parseHex n (i + 1) (v * 16 + d)

def parseHex4 (i : Nat) : Option Nat := parseHex buf 4 i 0

/-- The low surrogate whose escape stands at `p`, looked for when `cp` is a high one. -/
def lowAt (cp p : Nat) : Option Nat :=
  if 0xD800 ≤ cp ∧ cp ≤ 0xDBFF ∧
      p + 6 ≤ buf.length ∧ buf[p]? = some backslash ∧ buf[p + 1]? = some 0x75 then
    match parseHex4 buf (p + 2) with
    | some lo => if 0xDC00 ≤ lo ∧ lo ≤ 0xDFFF then some lo else none
    | none => none
  else none

/-- The branch `case 'u'` of `emit_json_string`, with `p` at the `u`. -/
def parseUnicodeEscape : Prog St Unit := do
  let st ← .get
  if st.p + 5 > buf.length then .fail
  else
    match parseHex4 buf (st.p + 1) with
    | none => .fail
    | some cp => do
      advance 5
      match lowAt buf cp (st.p + 5) with
      -- the escape of the low surrogate is skipped as well
      | some lo => do
        advance 6
        appendCodePoint (surrogatePair cp lo)
      | none => appendCodePoint cp
where
  /-- `if (cp >= 0xD800 && cp <= 0xDFFF) break; append_utf8(cp);`: an unpaired surrogate is
  dropped. -/
  appendCodePoint (cp : Nat) : Prog St Unit :=
    if 0xD800 ≤ cp ∧ cp ≤ 0xDFFF then pure () else out (.utf8 cp)

/-- The `switch` on the byte after a backslash. -/
def emitEscape (c : UInt8) : Prog St Unit :=
  if c = quote then do out (.byte quote); advance 1
  else if c = backslash then do out (.byte backslash); advance 1
  else if c = slash then do out (.byte slash); advance 1
  else if c = 0x62 then do out (.byte 0x08); advance 1
  else if c = 0x66 then do out (.byte 0x0C); advance 1
  -- line feed and tabulator become a space, a carriage return nothing
  else if c = 0x6E then do out .space; advance 1
  else if c = 0x74 then do out .space; advance 1
  else if c = 0x72 then advance 1
  else if c = 0x75 then parseUnicodeEscape buf
  else do out (.byte c); advance 1

/-- The raw bytes of a multi-byte character after its first: those the buffer still holds. -/
def emitContinuation (n : Nat) : Prog St Unit :=
  .modify fun st =>
    { p := st.p + n, out := LineBuf.appendAllNc ((buf.drop st.p).take n) st.out }

def emitLoop : Nat → Prog St Unit
  | 0 => .diverge
  | n + 1 => do
    let c ← cur buf
    match c with
    | none => .fail
    | some c =>
      if c = quote then advance 1
      else if c = backslash then do
        advance 1
        let e ← cur buf
        match e with
        | none => .fail
        | some e => do
          emitEscape buf e
          emitLoop n
      else if c < 0x20 then do
        out .space
        advance 1
        emitLoop n
      else if c < 0x80 then do
        out (.byte c)
        advance 1
        emitLoop n
      else do
        out (.lead (utf8CharLen c) c)
        advance 1
        emitContinuation buf (utf8CharLen c - 1)
        emitLoop n

def emitJsonString : Prog St Unit := do
  advance 1
  let st ← .get
  emitLoop buf (buf.length - st.p + 1)

/-- The cursor after the scan over the characters of a number. -/
def numberEnd : Nat → Nat → Nat
  | 0, p => p
  | n + 1, p =>
    match buf[p]? with
    | none => p
    | some c => if isNumChar c then numberEnd n (p + 1) else p

def parseNumber : Prog St Unit :=
  .modify fun st =>
    let stop := numberEnd buf buf.length st.p
    { p := stop
      out := LineBuf.execAll (((buf.drop st.p).take (stop - st.p)).map .byte) st.out }

/-- `p += n; append_str(s); return 0;` -/
def parseLit (s : List UInt8) : Prog St Unit := do
  advance s.length
  out (.str s)

/-! ## 2. The recursive parser -/

mutual

def parseValue : Nat → Nat → Prog St Unit
  | 0, _ => .diverge
  | fuel + 1, depth => do
    skipWs buf
    let st ← .get
    match buf[st.p]? with
    | none => .fail
    | some c =>
      if c = lbrace then parseObject fuel depth
      else if c = lbracket then parseArray fuel depth
      else if c = quote then emitJsonString buf
      -- a literal that does not match is left to the tests below, which fail
      else if c = 0x74 ∧ matchLit buf st.p (bytes "true") then parseLit (bytes "true")
      else if c = 0x66 ∧ matchLit buf st.p (bytes "false") then parseLit (bytes "false")
      else if c = 0x6E ∧ matchLit buf st.p (bytes "null") then parseLit (bytes "null")
      else if isdigit c ∨ c = minus then parseNumber buf
      else .fail
termination_by structural fuel => fuel

def parseObject : Nat → Nat → Prog St Unit
  | 0, _ => .diverge
  | fuel + 1, depth =>
    if depth > maxDepth then .fail
    else do
      advance 1                                   -- the '{'
      skipWs buf
      let c ← cur buf
      if c = some rbrace then advance 1
      else parseMembers fuel depth
termination_by structural fuel => fuel

def parseMembers : Nat → Nat → Prog St Unit
  | 0, _ => .diverge
  | fuel + 1, depth => do
    skipWs buf
    let c ← cur buf
    if c ≠ some quote then .fail
    else do
      out (.indent depth)
      emitJsonString buf                          -- key
      skipWs buf
      let c ← cur buf
      if c ≠ some colon then .fail
      else do
        advance 1
        skipWs buf
        out (.str (bytes ": "))
        let c ← cur buf
        (if c = some lbrace ∨ c = some lbracket then do
          out .flush
          parseValue fuel (depth + 1)
        else do
          parseValue fuel depth
          out .flush)
        skipWs buf
        let c ← cur buf
        if c = some comma then do
          advance 1
          parseMembers fuel depth
        else do
          skipWs buf
          let c ← cur buf
          if c ≠ some rbrace then .fail
          else advance 1
termination_by structural fuel => fuel

def parseArray : Nat → Nat → Prog St Unit
  | 0, _ => .diverge
  | fuel + 1, depth =>
    if depth > maxDepth then .fail
    else do
      advance 1                                   -- the '['
      skipWs buf
      let c ← cur buf
      if c = some rbracket then advance 1
      else parseElements fuel depth
termination_by structural fuel => fuel

def parseElements : Nat → Nat → Prog St Unit
  | 0, _ => .diverge
  | fuel + 1, depth => do
    out (.indent depth)
    out (.str (bytes "- "))
    let c ← cur buf
    (if c = some lbrace ∨ c = some lbracket then do
      out .flush
      parseValue fuel (depth + 1)
    else do
      parseValue fuel depth
      out .flush)
    skipWs buf
    let c ← cur buf
    if c = some comma then do
      advance 1
      parseElements fuel depth
    else do
      skipWs buf
      let c ← cur buf
      if c ≠ some rbracket then .fail
      else advance 1
termination_by structural fuel => fuel

end

end

/-- `main` after `read_all`, on the buffer it filled. -/
def mainOn (buf : List UInt8) : Option Exit := do
  let (_, st) ← skipWs buf ⟨0, LineBuf.empty⟩
  if st.p ≥ buf.length then
    return ⟨1, st.out.stdout, st.out.truncated, "empty input\n"⟩
  let (ok, st) ← parseValue buf (Stream.callBound buf) 0 st
  match ok with
  | none =>
    return ⟨1, st.out.stdout, st.out.truncated,
      "json parse error at offset " ++ toString st.p ++ "\n"⟩
  | some _ =>
    let (_, st) ← skipWs buf st
    if st.p < buf.length then
      return ⟨1, st.out.stdout, st.out.truncated,
        "trailing data at offset " ++ toString st.p ++ "\n"⟩
    let out := LineBuf.flushLine st.out
    return ⟨0, out.stdout, out.truncated, out.truncationWarning⟩

def main (input : List UInt8) : Option Exit := do
  let buf ← Text.readAll input
  mainOn buf

end J2t.Whole
