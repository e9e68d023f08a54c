import ZteWifi.Lib.Search
import ZteWifi.Text.Ascii

/-!
# Header fields

`get_hdr` and the comparisons of `wssh.c` that take no account of case.
-/

open Ascii

namespace Net

/-- The bytes of a C string: those before the NUL. -/
def cstr (s : List UInt8) : List UInt8 := s.takeWhile (· ≠ 0)

/-- `strcasecmp` finds no difference. -/
def sameText (s t : List UInt8) : Bool := (cstr s).map tolower = (cstr t).map tolower

/-- `ci_has_n` -/
def ciHasN (hay need : List UInt8) : Bool :=
  (Search.find (need.map tolower) (hay.map tolower)).isSome

/-- `ci_has`, which stops at a NUL. -/
def ciHas (hay need : List UInt8) : Bool := ciHasN (cstr hay) need

/-- A line without the CR at its end. -/
def chopCr (line : List UInt8) : List UInt8 :=
  if line.getLast? = some 0x0D then line.dropLast else line

/-- The value of the field on one line, cut to `vsz - 1` bytes. -/
def fieldValue (name : List UInt8) (vsz : Nat) (line : List UInt8) : Option (List UInt8) :=
  if (line.take name.length).map tolower = name.map tolower ∧ (line)[name.length]? = some colon then
    some (((line.drop (name.length + 1)).dropWhile fun c => c = space ∨ c = 0x09).take (vsz - 1))
  else none

/-- `get_hdr`: the value of the first line that has the field; `none` is the result `-1`. -/
def getHdr (p name : List UInt8) (vsz : Nat) : Option (List UInt8) :=
  (p.splitOn nl).findSome? fun line => fieldValue name vsz (chopCr line)

/-- The path of a `GET`: what stands in front of the next blank, and nothing if there is none. -/
def requestPath (head : List UInt8) : List UInt8 :=
  if space ∈ head.drop 4 then (head.drop 4).takeWhile (· ≠ space) else []

end Net
