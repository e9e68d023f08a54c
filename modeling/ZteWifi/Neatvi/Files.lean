import Mathlib.Algebra.GroupWithZero.Nat
import ZteWifi.Net.Socket
import ZteWifi.Neatvi.Lbuf

/-!
# Reading and writing files

`lbuf_rd` and `lbuf_wr`: what `read` and `write` do comes as a script that the surroundings supply.
-/

open Net

namespace Neatvi

/-! ## 1. Reading -/

/-- The result of one `read` into the buffer of `lbuf_rd`; no bytes, or the end of the script, is
the end of the file. -/
inductive Read
  | data (bs : List UInt8)
  | error
  deriving DecidableEq, Repr

/-- The loop of `lbuf_rd` with `sb` read so far: whether the end of the file was reached, and what
was read. -/
def rdLoop (sb : List UInt8) : List Read → Bool × List UInt8
  | [] => (true, sb)
  | .error :: _ => (false, sb)
  | .data bs :: rs => if bs = [] then (true, sb) else rdLoop (sb ++ bs) rs

/-- `lbuf_rd`: the result, and the buffer. -/
def lbufRd (lb : Lbuf) (rs : List Read) (beg fin : Nat) : Nat × Lbuf :=
  match rdLoop [] rs with
  | (true, sb) => (0, lbufEditraw lb (some sb) sb.length beg fin)
  | (false, _) => (1, lb)

/-! ## 2. Writing -/

/-- `write_fully`: whether the result is the number of bytes (otherwise it is `-1`), the bytes that
were taken, and the results left. -/
def writeFully : List UInt8 → List Write → Bool × List UInt8 × List Write
  | bs, [] => (true, bs, [])
  | bs, w :: later =>
    if bs = [] then (true, [], w :: later)
    else
      match w with
      | .intr => writeFully bs later
      | .error => (false, [], later)
      | .took n =>
        -- a `write` of nothing is tried again
        let (ok, taken, ws) := writeFully (bs.drop n) later
        (ok, bs.take n ++ taken, ws)

/-- A file that is being written: the bytes it has taken, and the results to come. -/
structure Out where
  taken : List UInt8
  ws : List Write

def Out.put (bs : List UInt8) (f : Out) : Bool × Out :=
  let (ok, taken, ws) := writeFully bs f.ws
  (ok, ⟨f.taken ++ taken, ws⟩)

/-- `sizeof(buf)` -/
abbrev wrSize : Nat := 4096

/-- A round of the loop of `lbuf_wr` with `buf` not written yet: whether it goes on. -/
def wrLine (l : Line) (buf : List UInt8) (f : Out) : Bool × List UInt8 × Out :=
  let full := 0 < buf.length ∧ wrSize < buf.length + l.lnLen
  let (ok, f) := if full then f.put buf else (true, f)
  let buf := if full then [] else buf
  if ok = false then (false, buf, f)
  else if wrSize ≤ l.lnLen then
    -- a long line goes past the buffer
    let (ok, f) := f.put l.text
    (ok, buf, f)
  else (true, buf ++ l.text, f)

def wrLoop : List Line → List UInt8 → Out → Bool × List UInt8 × Out
  | [], buf, f => (true, buf, f)
  | l :: ls, buf, f =>
    match wrLine l buf f with
    | (false, buf, f) => (false, buf, f)
    | (true, buf, f) => wrLoop ls buf f

/-- `lbuf_wr`: the result, and the file, of which `old` was there before. -/
def lbufWr (lb : Lbuf) (beg fin : Nat) (ws : List Write) (old : List UInt8) : Nat × List UInt8 :=
  let lines := (lb.ln.drop beg).take (fin - beg)
  let file (f : Out) : List UInt8 := f.taken ++ old.drop f.taken.length
  match wrLoop lines [] ⟨[], ws⟩ with
  | (false, _, f) => (1, file f)
  | (true, buf, f) =>
    let (ok, f) := if 0 < buf.length then f.put buf else (true, f)
    if ok = false then (1, file f)
    -- `ftruncate`
    else (0, (file f).take (lines.map Line.lnLen).sum)

end Neatvi
