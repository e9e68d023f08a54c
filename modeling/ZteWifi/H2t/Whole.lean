import ZteWifi.H2t.Names
import ZteWifi.Lib.Search
import ZteWifi.Text.ReadAll

/-!
# The whole-buffer converter `h2t非流式.c`

The version that reads its input into memory first and goes through it by index.
`html[0 .. html_len)` is the list `html`.
-/

open Ascii LineBuf

namespace H2t.Whole

section
variable (html : List UInt8)

/-! ## 1. Searching -/

/-- `find_ci`; `none` is `(size_t)-1`. -/
def findCi (start : Nat) (needle : List UInt8) : Option Nat :=
  (Search.find (needle.map tolower) ((html.drop start).map tolower)).map (start + ·)

/-- `while (i < html_len && p(html[i])) i++;` -/
def scanWhile (p : UInt8 → Bool) (i : Nat) : Nat := i + ((html.drop i).takeWhile p).length

/-- `while (i < html_len && html[i] != '>') i++; if (i < html_len) i++;` -/
def pastGt (i : Nat) : Nat :=
  let i := scanWhile html (· ≠ gt) i
  if i < html.length then i + 1 else i

def skipUntilClose (name : List UInt8) (pos : Nat) : Nat :=
  let pat := (lt :: slash :: name).take 39
  match findCi html pos pat with
  | none => html.length
  | some idx => pastGt html (idx + pat.length)

/-! ## 2. Tags -/

/-- The loop over the attributes, on the bytes from the index `p` on.  The first argument is the
quote that the inner loop looks for. -/
def attrEnd : Option UInt8 → Nat → List UInt8 → Nat
  | _, p, [] => p
  | some q, p, c :: s => attrEnd (if c = q then none else some q) (p + 1) s
  | none, p, c :: s =>
    if c = gt then p
    else if c = quote ∨ c = apos then attrEnd (some c) (p + 1) s
    else attrEnd none (p + 1) s

/-- The variable `closing` for the tag whose `<` stands at `pos`; those below are `ns`, `ne`, `tn`,
and `p` behind the attributes. -/
def closing (pos : Nat) : Bool := html[pos + 1]? = some slash

def nameStart (pos : Nat) : Nat := if closing html pos then pos + 2 else pos + 1

def nameEnd (pos : Nat) : Nat := scanWhile html isNameChar (nameStart html pos)

def tagName (pos : Nat) : List UInt8 :=
  -- `tn` holds 63 bytes
  let tl := nameEnd html pos - nameStart html pos
  ((html.drop (nameStart html pos)).take (if tl ≥ 64 then 63 else tl)).map tolower

def tagEnd (pos : Nat) : Nat := attrEnd none (nameEnd html pos) (html.drop (nameEnd html pos))

/-- An ordinary tag. -/
def readTag (pos : Nat) : List Cmd × Nat :=
  let p := tagEnd html pos
  let self : Bool := p < html.length && html[p - 1]? = some slash
  let next := if p < html.length then p + 1 else p
  if !closing html pos && !self && skippedNames.contains (tagName html pos) then
    ([], skipUntilClose html (tagName html pos) next)
  else (if isBlock (tagName html pos) then [.flush] else [], next)

/-- The branch of `main` on `<`. -/
def handleTag (pos : Nat) : List Cmd × Nat :=
  if pos + 3 < html.length ∧ html[pos + 1]? = some 0x21 ∧ html[pos + 2]? = some minus ∧
      html[pos + 3]? = some minus then
    match findCi html (pos + 4) [minus, minus, gt] with
    -- a comment that is not closed takes the rest of the input
    | none => ([], html.length)
    | some idx => ([], idx + 3)
  else if html[pos + 1]? = some 0x21 ∨ html[pos + 1]? = some 0x3F then ([], pastGt html (pos + 1))
  else readTag html pos

/-! ## 3. Entities -/

/-- The loop over the digits: the value, which wraps around, and the index behind them. -/
def digits (base : Nat) : UInt32 → Nat → List UInt8 → UInt32 × Nat
  | cp, i, [] => (cp, i)
  | cp, i, c :: s =>
    match digitOf base c with
    | none => (cp, i)
    | some d => digits base (cp * UInt32.ofNat base + UInt32.ofNat d) (i + 1) s

/-- A numeric reference whose `&` stands at `p` and whose digits start at `d0`. -/
def numericDigits (base d0 p : Nat) : List Cmd × Nat :=
  let (cp, i) := digits base 0 d0 (html.drop d0)
  if i = d0 ∨ html[i]? ≠ some semicolon then ([.byte amp], p + 1)
  else (emitCodePoint cp.toNat, i + 1)

def numericEntity (p : Nat) : List Cmd × Nat :=
  if html[p + 2]? = some 0x78 ∨ html[p + 2]? = some 0x58 then numericDigits html 16 (p + 3) p
  else numericDigits html 10 (p + 2) p

/-- `decode_entity` at the index `p`. -/
def decodeEntity (p : Nat) : List Cmd × Nat :=
  if p + 1 ≥ html.length then ([.byte amp], p + 1)
  else if html[p + 1]? = some hash then numericEntity html p
  else
    -- the semicolon is looked for in the next eleven bytes
    let stop := min (p + 12) html.length
    let i := p + 1 + (((html.take stop).drop (p + 1)).takeWhile (· ≠ semicolon)).length
    if i ≥ stop ∨ i = p + 1 then ([.byte amp], p + 1)
    else (emitKnownEntity (((html.drop (p + 1)).take (i - (p + 1))).map tolower), i + 1)

/-! ## 4. The main loop -/

/-- What an ordinary byte of text does. -/
def textCmd (c : UInt8) : Cmd :=
  if c < 0x80 then .byte c
  else if 0xC2 ≤ c ∧ c ≤ 0xDF then .lead 2 c
  else if 0xE0 ≤ c ∧ c ≤ 0xEF then .lead 3 c
  else if 0xF0 ≤ c ∧ c ≤ 0xF4 then .lead 4 c
  else .raw c

/-- One turn of the loop of `main` with the byte `c` at `pos`. -/
def mainStep (c : UInt8) (pos : Nat) : List Cmd × Nat :=
  if c = lt then handleTag html pos
  else if c = amp then decodeEntity html pos
  else if isspace c then ([.space], scanWhile html isspace (pos + 1))
  -- other control characters are dropped
  else if c < 0x20 then ([], pos + 1)
  else ([textCmd c], pos + 1)

/-- The loop of `main`, at most `n` times round. -/
def mainLoop : Nat → Nat → List Cmd
  | 0, _ => []
  | n + 1, pos =>
    match html[pos]? with
    | none => []
    | some c => (mainStep html c pos).1 ++ mainLoop n (mainStep html c pos).2

def commands : List Cmd := mainLoop html html.length 0

end

def main (input : List UInt8) : Option Exit := do
  let html ← Text.readAll input
  return finish (commands html)

end H2t.Whole
