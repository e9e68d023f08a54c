/-!
# Bytes and the C character classes

Characters are bytes (`unsigned char`).  The classes are those of `<ctype.h>` in the C locale,
where no byte from `0x80` on belongs to any of them.
-/

namespace Ascii

@[simp] abbrev nl : UInt8 := 0x0A
@[simp] abbrev space : UInt8 := 0x20
@[simp] abbrev quote : UInt8 := 0x22
@[simp] abbrev hash : UInt8 := 0x23
@[simp] abbrev amp : UInt8 := 0x26
@[simp] abbrev apos : UInt8 := 0x27
@[simp] abbrev plus : UInt8 := 0x2B
@[simp] abbrev comma : UInt8 := 0x2C
@[simp] abbrev minus : UInt8 := 0x2D
@[simp] abbrev dot : UInt8 := 0x2E
@[simp] abbrev slash : UInt8 := 0x2F
@[simp] abbrev colon : UInt8 := 0x3A
@[simp] abbrev semicolon : UInt8 := 0x3B
@[simp] abbrev lt : UInt8 := 0x3C
@[simp] abbrev gt : UInt8 := 0x3E
@[simp] abbrev lbracket : UInt8 := 0x5B
@[simp] abbrev backslash : UInt8 := 0x5C
@[simp] abbrev rbracket : UInt8 := 0x5D
@[simp] abbrev lbrace : UInt8 := 0x7B
@[simp] abbrev rbrace : UInt8 := 0x7D

/-- The bytes of an ASCII string. -/
def bytes (s : String) : List UInt8 := s.toList.map fun c => UInt8.ofNat c.toNat

def isspace (c : UInt8) : Bool := c = space || (0x09 ≤ c && c ≤ 0x0D)

def isdigit (c : UInt8) : Bool := 0x30 ≤ c && c ≤ 0x39

def isupper (c : UInt8) : Bool := 0x41 ≤ c && c ≤ 0x5A

def islower (c : UInt8) : Bool := 0x61 ≤ c && c ≤ 0x7A

def isalnum (c : UInt8) : Bool := isdigit c || isupper c || islower c

def tolower (c : UInt8) : UInt8 := if isupper c then c + 0x20 else c

/-- `hex_digit`; `none` is the source's `-1`. -/
def hexDigit (c : UInt8) : Option Nat :=
  if isdigit c then some (c.toNat - 0x30)
  else if 0x61 ≤ c ∧ c ≤ 0x66 then some (c.toNat - 0x61 + 10)
  else if 0x41 ≤ c ∧ c ≤ 0x46 then some (c.toNat - 0x41 + 10)
  else none

/-- `utf8_char_len`: the length of a character, told from its first byte alone. -/
def utf8CharLen (c : UInt8) : Nat :=
  if 0xF0 ≤ c ∧ c ≤ 0xF4 then 4
  else if 0xE0 ≤ c ∧ c ≤ 0xEF then 3
  else if 0xC2 ≤ c ∧ c ≤ 0xDF then 2
  else 1

/-- A property of bytes can be tested on all 256 of them. -/
instance decidableForallByte {p : UInt8 → Prop} [DecidablePred p] : Decidable (∀ c, p c) :=
  decidable_of_iff (∀ i : Fin 256, p (UInt8.ofFin i))
    ⟨fun h c => UInt8.ofFin_toFin c ▸ h c.toFin, fun h _ => h _⟩

theorem hexDigit_lt {c : UInt8} {d : Nat} (h : hexDigit c = some d) : d < 16 := by
  simp only [hexDigit, isdigit, Bool.and_eq_true, decide_eq_true_eq, UInt8.le_iff_toNat_le] at h
  split at h
  · simp only [Option.some.injEq, UInt8.reduceToNat] at *
    omega
  · split at h
    · simp only [Option.some.injEq, UInt8.reduceToNat] at *
      omega
    · split at h
      · simp only [Option.some.injEq, UInt8.reduceToNat] at *
        omega
      · cases h

theorem utf8CharLen_pos (c : UInt8) : 0 < utf8CharLen c := by
  unfold utf8CharLen
  split <;> (try split) <;> (try split) <;> decide

theorem utf8CharLen_le (c : UInt8) : utf8CharLen c ≤ 4 := by
  unfold utf8CharLen
  split <;> (try split) <;> (try split) <;> decide

end Ascii
