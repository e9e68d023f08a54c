import ZteWifi.Text.LineBuf

/-!
# Element and entity names

What `h2t.c` and its whole-buffer predecessor know by name, in the same tables.
-/

open Ascii LineBuf

namespace H2t

/-- What a run leaves behind. -/
structure Exit where
  status : Nat
  stdout : List UInt8
  truncated : Bool
  stderr : String
  deriving DecidableEq, Repr

/-- The end of `main`, after these calls of the line-buffer routines. -/
def finish (cmds : List Cmd) : Exit :=
  let b := flushLine (execAll cmds .empty)
  ⟨0, b.stdout, b.truncated, b.truncationWarning⟩

/-- The bytes of which the name of a tag is made. -/
def isNameChar (c : UInt8) : Bool := isalnum c || c = minus || c = colon

/-- The table of `is_block`. -/
def blockNames : List (List UInt8) :=
  ["address", "article", "aside", "blockquote", "body", "br", "caption", "dd",
    "details", "div", "dl", "dt", "fieldset", "figcaption", "figure", "footer",
    "form", "h1", "h2", "h3", "h4", "h5", "h6", "head", "header", "html", "hr",
    "legend", "li", "main", "nav", "ol", "optgroup", "option", "p", "pre",
    "section", "summary", "table", "tbody", "td", "tfoot", "th", "thead",
    "title", "tr", "ul"].map bytes

def isBlock (t : List UInt8) : Bool := blockNames.contains t

/-- The elements whose contents are dropped. -/
def skippedNames : List (List UInt8) :=
  ["script", "style", "noscript", "template", "svg"].map bytes

/-- The replacements of `emit_known_entity`. -/
def knownEntities : List (List UInt8 × Cmd) :=
  [(bytes "nbsp", .space), (bytes "ensp", .space), (bytes "emsp", .space), (bytes "thinsp", .space),
    (bytes "amp", .str [amp]), (bytes "lt", .str [lt]), (bytes "gt", .str [gt]),
    (bytes "quot", .str [quote]), (bytes "apos", .str [apos]), (bytes "ndash", .str [minus]),
    (bytes "mdash", .str [minus]), (bytes "hellip", .str [dot, dot, dot]),
    (bytes "middot", .str [0xC2, 0xB7]), (bytes "times", .str [0xC3, 0x97]),
    (bytes "deg", .str [0xC2, 0xB0]), (bytes "plusmn", .str [0xC2, 0xB1]),
    (bytes "copy", .str [0xC2, 0xA9]), (bytes "reg", .str [0xC2, 0xAE])]

/-- `emit_known_entity` on a name in lower case; an unknown entity is dropped. -/
def emitKnownEntity (name : List UInt8) : List Cmd := (knownEntities.lookup name).toList

/-- The value of a digit of a character reference. -/
def digitOf (base : Nat) (c : UInt8) : Option Nat :=
  (hexDigit c).filter fun d => ¬ (base = 10 ∧ d > 9)

/-- What becomes of a character reference with the value `cp`. -/
def emitCodePoint (cp : Nat) : List Cmd :=
  if cp = 0 ∨ cp > 0x10FFFF ∨ (cp ≥ 0xD800 ∧ cp ≤ 0xDFFF) then []
  else if cp = 0x20 ∨ cp = 0x09 ∨ cp = 0x0A ∨ cp = 0x0D then [.space]
  else [.utf8 cp]

end H2t
