import Mathlib.Algebra.Group.Nat.Defs
import Mathlib.Data.List.DropRight
import ZteWifi.Text.Ascii

/-!
# The output line buffer

`h2t.c`, `j2t.c` and their whole-buffer predecessors carry the same copy of the routines that fill
one line of output and break it at `MAX_LINE`.  They are modelled once.  The terminating NUL the
code keeps behind the line is left out: nothing reads it, every routine goes by `line_len`.
-/

open Ascii

/-- `MAX_LINE` -/
@[simp] abbrev maxLine : Nat := 80

/-- `LINE_CAP` -/
@[simp] abbrev lineCap : Nat := 128

/-- The statics `line[0 .. line_len)` and `truncated`, and what has been written to stdout. -/
structure LineBuf where
  line : List UInt8
  truncated : Bool
  stdout : List UInt8
  deriving DecidableEq, Repr

namespace LineBuf

def empty : LineBuf := ⟨[], false, []⟩

/-! ## 1. The routines -/

def appendByteNc (c : UInt8) (b : LineBuf) : LineBuf :=
  if b.line.length + 1 ≥ lineCap then { b with truncated := true }
  else { b with line := b.line ++ [c] }

/-- The scan of `wrap_line` for the last space: `i` counts up and `sp` keeps the latest hit. -/
def lastSpace (i : Nat) (sp : Option Nat) : List UInt8 → Option Nat
  | [] => sp
  | c :: cs => lastSpace (i + 1) (if c = space then some i else sp) cs

/-- Break the line at its last space, or print it whole when it has none. -/
def wrapLine (b : LineBuf) : LineBuf :=
  match lastSpace 0 none b.line with
  | none => { b with stdout := b.stdout ++ b.line ++ [nl], line := [] }
  | some sp =>
    -- `cut` runs back over the spaces before `sp`, `j` forward over those after it
    { b with
      stdout := b.stdout ++ (b.line.take sp).rdropWhile (· = space) ++ [nl]
      line := (b.line.drop (sp + 1)).dropWhile (· = space) }

def appendByte (c : UInt8) (b : LineBuf) : LineBuf :=
  appendByteNc c (if b.line.length ≥ maxLine then wrapLine b else b)

/-- Make room for a character of `n` bytes: the test that stands before every raw append. -/
def reserve (n : Nat) (b : LineBuf) : LineBuf :=
  if b.line.length + n > maxLine then wrapLine b else b

def appendAllNc (cs : List UInt8) (b : LineBuf) : LineBuf := cs.foldl (fun b c => appendByteNc c b) b

/-- `append_str` on the bytes before the NUL.  The first argument counts the bytes of a multi-byte
character that the inner loop has still to copy. -/
def appendStrLoop : Nat → List UInt8 → LineBuf → LineBuf
  | _, [], b => b
  | 0, c :: s, b =>
    if c < 0x80 then appendStrLoop 0 s (appendByte c b)
    else appendStrLoop (utf8CharLen c - 1) s (appendByteNc c (reserve (utf8CharLen c) b))
  | n + 1, c :: s, b => appendStrLoop n s (appendByteNc c b)

def appendStr (s : List UInt8) (b : LineBuf) : LineBuf := appendStrLoop 0 s b

def appendSpace (b : LineBuf) : LineBuf :=
  if b.line ≠ [] ∧ b.line.getLast? ≠ some space then appendByte space b else b

def flushLine (b : LineBuf) : LineBuf :=
  let line := b.line.rdropWhile (· = space)
  if line = [] then { b with line := [] }
  else { b with stdout := b.stdout ++ line ++ [nl], line := [] }

/-- The warning `main` prints when the line buffer overflowed. -/
def truncationWarning (b : LineBuf) : String :=
  if b.truncated then "warning: output truncated, increase LINE_CAP\n" else ""

/-- The array `tmp` of `append_utf8`. -/
def utf8Bytes (cp : Nat) : List UInt8 :=
  if cp < 0x80 then [UInt8.ofNat cp]
  else if cp < 0x800 then
    [UInt8.ofNat (0xC0 ||| cp >>> 6), UInt8.ofNat (0x80 ||| cp &&& 0x3F)]
  else if cp < 0x10000 then
    [UInt8.ofNat (0xE0 ||| cp >>> 12), UInt8.ofNat (0x80 ||| cp >>> 6 &&& 0x3F),
      UInt8.ofNat (0x80 ||| cp &&& 0x3F)]
  else
    [UInt8.ofNat (0xF0 ||| cp >>> 18), UInt8.ofNat (0x80 ||| cp >>> 12 &&& 0x3F),
      UInt8.ofNat (0x80 ||| cp >>> 6 &&& 0x3F), UInt8.ofNat (0x80 ||| cp &&& 0x3F)]

def appendUtf8 (cp : Nat) (b : LineBuf) : LineBuf :=
  appendAllNc (utf8Bytes cp) (reserve (utf8Bytes cp).length b)

/-- The number of spaces `output_indent` writes. -/
def indentWidth (depth : Nat) : Nat :=
  if depth * 2 > maxLine / 2 then maxLine / 2 else depth * 2

def outputIndent (depth : Nat) (b : LineBuf) : LineBuf :=
  appendAllNc (List.replicate (indentWidth depth) space)
    (if b.line.length > 0 then flushLine b else b)

/-! ## 2. Output commands

None of the parsers ever looks at the line buffer, so what they do to it is a list of commands. -/

/-- One call of a line-buffer routine.  `lead n c` is the first byte `c` of a character of `n`
bytes, with the test for room before it; its other bytes follow as `raw`. -/
inductive Cmd where
  | byte (c : UInt8)
  | raw (c : UInt8)
  | lead (n : Nat) (c : UInt8)
  | str (s : List UInt8)
  | space
  | utf8 (cp : Nat)
  | indent (depth : Nat)
  | flush
  deriving DecidableEq, Repr

def exec : Cmd → LineBuf → LineBuf
  | .byte c => appendByte c
  | .raw c => appendByteNc c
  | .lead n c => fun b => appendByteNc c (reserve n b)
  | .str s => appendStr s
  | .space => appendSpace
  | .utf8 cp => appendUtf8 cp
  | .indent d => outputIndent d
  | .flush => flushLine

def execAll (cs : List Cmd) (b : LineBuf) : LineBuf := cs.foldl (fun b c => exec c b) b

@[simp] theorem execAll_nil (b : LineBuf) : execAll [] b = b := rfl

@[simp] theorem execAll_cons (c : Cmd) (cs : List Cmd) (b : LineBuf) :
    execAll (c :: cs) b = execAll cs (exec c b) := rfl

@[simp] theorem execAll_append (cs ds : List Cmd) (b : LineBuf) :
    execAll (cs ++ ds) b = execAll ds (execAll cs b) := List.foldl_append

theorem execAll_map_raw (cs : List UInt8) (b : LineBuf) :
    execAll (cs.map .raw) b = appendAllNc cs b := by
  rw [execAll, List.foldl_map]
  rfl

end LineBuf
