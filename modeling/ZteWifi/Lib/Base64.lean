import Mathlib.Data.List.Basic

/-!
# Base64

The decoder of RFC 4648 for the alphabet of its Table 1: quanta of four letters, the last of them
padded, without line feeds and with zero pad bits.
-/

namespace Rfc4648

/-- The value of a letter of the alphabet. -/
def value (c : UInt8) : Option Nat :=
  if 0x41 ≤ c ∧ c ≤ 0x5A then some (c.toNat - 0x41)
  else if 0x61 ≤ c ∧ c ≤ 0x7A then some (c.toNat - 0x61 + 26)
  else if 0x30 ≤ c ∧ c ≤ 0x39 then some (c.toNat - 0x30 + 52)
  else if c = 0x2B then some 62
  else if c = 0x2F then some 63
  else none

/-- `=` -/
def pad : UInt8 := 0x3D

/-- The 24 bits of four letters. -/
def quantum (w x y z : Nat) : List UInt8 :=
  let n := ((w * 64 + x) * 64 + y) * 64 + z
  [UInt8.ofNat (n / 65536), UInt8.ofNat (n / 256 % 256), UInt8.ofNat (n % 256)]

/-- The last 8 bits, behind which two letters are padding. -/
def lastByte (w x : UInt8) : Option (List UInt8) := do
  let w ← value w
  let x ← value x
  if x % 16 = 0 then some [UInt8.ofNat ((w * 64 + x) / 16)] else none

/-- The last 16 bits, behind which one letter is padding. -/
def lastTwo (w x y : UInt8) : Option (List UInt8) := do
  let w ← value w
  let x ← value x
  let y ← value y
  let n := ((w * 64 + x) * 64 + y) / 4
  if y % 4 = 0 then some [UInt8.ofNat (n / 256), UInt8.ofNat (n % 256)] else none

/-- The bytes that a text stands for. -/
def decode : List UInt8 → Option (List UInt8)
  | [] => some []
  | w :: x :: y :: z :: s =>
    if s = [] ∧ z = pad then if y = pad then lastByte w x else lastTwo w x y
    else do
      let w ← value w
      let x ← value x
      let y ← value y
      let z ← value z
      let rest ← decode s
      some (quantum w x y z ++ rest)
  | _ => none

theorem ne_pad {c : UInt8} {v : Nat} (h : value c = some v) : c ≠ pad := by
  rintro rfl
  cases h

/-- Four letters in front of a text. -/
theorem decode_quantum {w x y z : UInt8} {a b c d : Nat} (hw : value w = some a)
    (hx : value x = some b) (hy : value y = some c) (hz : value z = some d) {s t : List UInt8}
    (hs : decode s = some t) : decode (w :: x :: y :: z :: s) = some (quantum a b c d ++ t) := by
  rw [decode, if_neg fun h => ne_pad hz h.2]
  simp only [hw, hx, hy, hz, hs, bind, Option.bind]

theorem decode_lastByte {w x : UInt8} {a b : Nat} (hw : value w = some a) (hx : value x = some b)
    (hb : b % 16 = 0) : decode [w, x, pad, pad] = some [UInt8.ofNat ((a * 64 + b) / 16)] := by
  rw [decode, if_pos ⟨rfl, rfl⟩, if_pos rfl, lastByte]
  simp only [hw, hx, bind, Option.bind, if_pos hb]

theorem decode_lastTwo {w x y : UInt8} {a b c : Nat} (hw : value w = some a)
    (hx : value x = some b) (hy : value y = some c) (hc : c % 4 = 0) :
    decode [w, x, y, pad] = some [UInt8.ofNat (((a * 64 + b) * 64 + c) / 4 / 256),
      UInt8.ofNat (((a * 64 + b) * 64 + c) / 4 % 256)] := by
  rw [decode, if_pos ⟨rfl, rfl⟩, if_neg (ne_pad hy), lastTwo]
  simp only [hw, hx, hy, bind, Option.bind, if_pos hc]

end Rfc4648
