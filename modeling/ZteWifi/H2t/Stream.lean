import ZteWifi.H2t.Names
import ZteWifi.Lib.Kmp

/-!
# The streaming converter `h2t.c`

The functions of the source under their own names, as functions of the bytes that are still to be
read.  Each gives the calls of the line-buffer routines it makes and what it leaves unread, which is
`none` when the input ends before the token does; `main` then finds the end of its input.
-/

open Ascii LineBuf

namespace H2t.Stream

abbrev Step := List Cmd × Option (List UInt8)

/-! ## 1. Text -/

/-- `append_text_byte`, which reads the other bytes of a multi-byte character itself. -/
def appendTextByte (c : UInt8) (s : List UInt8) : Step :=
  let n := utf8CharLen c
  if c < 0x80 then ([.byte c], some s)
  -- a byte that starts no character is appended without a test for room
  else if n = 1 then ([.raw c], some s)
  else
    (.lead n c :: (s.take (n - 1)).map .raw,
      if n - 1 ≤ s.length then some (s.drop (n - 1)) else none)

/-! ## 2. Comments, declarations and what is skipped -/

/-- `skip_comment`, with the last two bytes in `d2` and `d1`. -/
def skipComment (d2 d1 : UInt8) : List UInt8 → Option (List UInt8)
  | [] => none
  | c :: s => if d2 = minus ∧ d1 = minus ∧ c = gt then some s else skipComment d1 c s

def skipDecl : List UInt8 → Option (List UInt8)
  | [] => none
  | c :: s => if c = gt then some s else skipDecl s

/-- The loop of `skip_until_close` behind the name.  The first argument is the quote that the inner
loop looks for. -/
def skipToGt : Option UInt8 → List UInt8 → Option (List UInt8)
  | _, [] => none
  -- a `>` within quotes does not count
  | some q, c :: s => skipToGt (if c = q then none else some q) s
  | none, c :: s =>
    if c = gt then some s
    else if c = quote ∨ c = apos then skipToGt (some c) s
    else skipToGt none s

/-- The array `pat` of `skip_until_close`, in lower case, as it is compared. -/
def closePat (name : List UInt8) : List UInt8 := ((lt :: slash :: name).take 39).map tolower

def skipUntilClose (name s : List UInt8) : Option (List UInt8) :=
  (Search.scan tolower (closePat name) (Search.failTable (closePat name)) 0 s).bind (skipToGt none)

/-! ## 3. Tags -/

/-- The loop over the attributes: whether the tag is closed by `/>`, and what is left behind it.
The first argument is the quote that the inner loop looks for. -/
def attrs : Option UInt8 → List UInt8 → Bool × Option (List UInt8)
  | _, [] => (false, none)
  | some q, c :: s => attrs (if c = q then none else some q) s
  | none, c :: s =>
    if c = gt then (false, some s)
    else if c = quote ∨ c = apos then attrs (some c) s
    else if c = slash then
      -- `/>` ends the tag, any other `/` is passed over
      if s.head? = some gt then (true, some s.tail) else attrs none s
    else attrs none s

structure Tag where
  closing : Bool
  tn : List UInt8
  self : Bool
  rest : Option (List UInt8)
  deriving DecidableEq, Repr

/-- The part of `handle_tag` that reads a tag. -/
def readTag (s : List UInt8) : Tag :=
  let closing : Bool := s.head? = some slash
  let s := if closing then s.tail else s
  let (self, rest) := attrs none (s.dropWhile isNameChar)
  -- `tn` holds 63 bytes; the rest of a longer name is read all the same
  ⟨closing, ((s.takeWhile isNameChar).take 63).map tolower, self, rest⟩

/-- The tag opens an element whose contents are dropped. -/
def Tag.skips (t : Tag) : Bool := !t.closing && !t.self && skippedNames.contains t.tn

/-- The part of `handle_tag` behind the tag. -/
def afterTag (t : Tag) : Step :=
  if t.skips then ([], t.rest.bind (skipUntilClose t.tn))
  else (if isBlock t.tn then [.flush] else [], t.rest)

/-- `handle_tag` behind the `<`. -/
def handleTag (s : List UInt8) : Step :=
  if s.head? = some 0x21 then
    if s.tail.head? = some minus then
      if s.tail.tail.head? = some minus then ([], skipComment 0 0 s.tail.tail.tail)
      -- `<!-` without a second `-` is a declaration
      else ([], skipDecl s.tail.tail)
    else ([], skipDecl s.tail)
  else if s.head? = some 0x3F then ([], skipDecl s.tail)
  else afterTag (readTag s)

/-! ## 4. Entities -/

/-- The variables of `decode_entity` in a numeric reference. -/
structure NumRef where
  tmp : List UInt8
  cp : Nat
  any : Bool
  c : Option UInt8
  deriving DecidableEq, Repr

/-- The loop over the digits. -/
def numLoop (base : Nat) (r : NumRef) : List UInt8 → NumRef × List UInt8
  -- `rd_peek` is called only while `tmp` has room
  | [] => if r.tmp.length + 1 < 40 then ({ r with c := none }, []) else (r, [])
  | c :: s =>
    if r.tmp.length + 1 < 40 then
      match digitOf base c with
      | none => ({ r with c := some c }, c :: s)
      | some d =>
        -- one more digit would lead out of the code points
        if r.cp > (0x10FFFF - d) / base then ({ r with c := some c }, c :: s)
        else numLoop base ⟨r.tmp ++ [c], r.cp * base + d, true, some c⟩ s
    else (r, c :: s)

/-- What has been read is text after all. -/
def resend (tmp : List UInt8) : List Cmd := .byte amp :: tmp.map .byte

/-- A numeric reference from its digits on, with what has been read in `tmp`. -/
def numericDigits (base : Nat) (tmp s : List UInt8) : List Cmd × List UInt8 :=
  let (r, rest) := numLoop base ⟨tmp, 0, false, s.head?⟩ s
  if r.any ∧ r.c = some semicolon then (emitCodePoint r.cp, rest.tail) else (resend r.tmp, rest)

/-- A numeric reference, behind the `#`. -/
def numericEntity : List UInt8 → List Cmd × List UInt8
  | [] => numericDigits 10 [hash] []
  | c :: s =>
    if c = 0x78 ∨ c = 0x58 then numericDigits 16 [hash, c] s else numericDigits 10 [hash] (c :: s)

/-- The loop over the letters and digits of a name. -/
def nameLoop (tmp : List UInt8) (c : Option UInt8) :
    List UInt8 → List UInt8 × Option UInt8 × List UInt8
  | [] => if tmp.length + 1 < 40 then (tmp, none, []) else (tmp, c, [])
  | d :: s =>
    if tmp.length + 1 < 40 then
      if isalnum d then nameLoop (tmp ++ [d]) (some d) s else (tmp, some d, d :: s)
    else (tmp, c, d :: s)

/-- A reference by name, of which `c` is the first byte. -/
def namedEntity (c : UInt8) (s : List UInt8) : List Cmd × List UInt8 :=
  let (tmp, c, rest) := nameLoop [] (some c) (c :: s)
  if tmp = [] then ([.byte amp], rest)
  else if c = some semicolon then (emitKnownEntity (tmp.map tolower), rest.tail)
  else (resend tmp, rest)

/-- `decode_entity` behind the `&`. -/
def decodeEntity : List UInt8 → List Cmd × List UInt8
  | [] => ([.byte amp], [])
  | c :: s => if c = hash then numericEntity s else namedEntity c s

/-! ## 5. The main loop -/

/-- One turn of the loop of `main`, which has read `c`. -/
def mainStep (c : UInt8) (s : List UInt8) : Step :=
  if c = lt then handleTag s
  else if c = amp then ((decodeEntity s).1, some (decodeEntity s).2)
  else if isspace c then ([.space], some (s.dropWhile isspace))
  -- other control characters are dropped
  else if c < 0x20 then ([], some s)
  else appendTextByte c s

/-- The loop of `main`, at most `n` times round. -/
def mainLoop : Nat → List UInt8 → List Cmd
  | 0, _ => []
  | _ + 1, [] => []
  -- a token that the input ends in leaves nothing to read
  | n + 1, c :: s => (mainStep c s).1 ++ mainLoop n ((mainStep c s).2.getD [])

def commands (input : List UInt8) : List Cmd := mainLoop input.length input

def main (input : List UInt8) : Exit := finish (commands input)

end H2t.Stream
