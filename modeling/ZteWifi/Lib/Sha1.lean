import Mathlib.Algebra.Group.Nat.Defs
import ZteWifi.Lib.BlockHash

/-!
# SHA-1

The secure hash standard (FIPS 180) on messages of bytes: padding, message schedule and compression
as the standard has them.
-/

namespace Fips180

/-! ## 1. Numbers as bytes, the highest first -/

def ofBytes (b : List UInt8) : Nat := b.foldl (fun n c => n * 256 + c.toNat) 0

def toBytes (k n : Nat) : List UInt8 :=
  (List.range k).reverse.map fun j => UInt8.ofNat (n / 256 ^ j)

/-! ## 2. The compression function -/

/-- The circular left shift. -/
def ROTL (n x : UInt32) : UInt32 := (x <<< n) ||| (x >>> (32 - n))

def Ch (x y z : UInt32) : UInt32 := (x &&& y) ^^^ (~~~ x &&& z)

def Parity (x y z : UInt32) : UInt32 := x ^^^ y ^^^ z

def Maj (x y z : UInt32) : UInt32 := (x &&& y) ^^^ (x &&& z) ^^^ (y &&& z)

/-- The function `f` of round `t`. -/
def f (t : Nat) : UInt32 → UInt32 → UInt32 → UInt32 :=
  if t ≤ 19 then Ch else if t ≤ 39 then Parity else if t ≤ 59 then Maj else Parity

def K (t : Nat) : UInt32 :=
  if t ≤ 19 then 0x5A827999 else if t ≤ 39 then 0x6ED9EBA1 else if t ≤ 59 then 0x8F1BBCDC
  else 0xCA62C1D6

/-- The message schedule of a block. -/
def W (M : List UInt8) (t : Nat) : UInt32 :=
  if t < 16 then UInt32.ofNat (ofBytes ((M.drop (4 * t)).take 4))
  else ROTL 1 (W M (t - 3) ^^^ W M (t - 8) ^^^ W M (t - 14) ^^^ W M (t - 16))

/-- The five words of the hash value, and the working variables. -/
structure Words where
  a : UInt32
  b : UInt32
  c : UInt32
  d : UInt32
  e : UInt32

def hashRound (M : List UInt8) (v : Words) (t : Nat) : Words :=
  { a := ROTL 5 v.a + f t v.b v.c v.d + v.e + K t + W M t
    b := v.a
    c := ROTL 30 v.b
    d := v.c
    e := v.d }

def compress (H : Words) (M : List UInt8) : Words :=
  let v := (List.range 80).foldl (hashRound M) H
  ⟨H.a + v.a, H.b + v.b, H.c + v.c, H.d + v.d, H.e + v.e⟩

/-! ## 3. The digest -/

def initial : Words := ⟨0x67452301, 0xEFCDAB89, 0x98BADCFE, 0x10325476, 0xC3D2E1F0⟩

/-- The zero bits behind the `1` that ends a message of `l` bits. -/
def zeroBits (l : Nat) : Nat := (448 + 512 - (l + 1) % 512) % 512

/-- They are the smallest solution of `l + 1 + k ≡ 448 (mod 512)`. -/
theorem zeroBits_least (l : Nat) : (l + 1 + zeroBits l) % 512 = 448 ∧
    ∀ k, (l + 1 + k) % 512 = 448 → zeroBits l ≤ k := by
  unfold zeroBits
  refine ⟨by omega, fun k hk => ?_⟩
  omega

/-- The padding of a message of `n` bytes: the first byte is the `1` with seven zeros. -/
def padding (n : Nat) : List UInt8 :=
  0x80 :: (List.replicate (zeroBits (8 * n) / 8) 0 ++ toBytes 8 (8 * n))

def Words.bytes (H : Words) : List UInt8 :=
  [H.a, H.b, H.c, H.d, H.e].flatMap fun w => toBytes 4 w.toNat

def sha1 (m : List UInt8) : List UInt8 :=
  (BlockHash.chain compress 64 initial (m ++ padding m.length)).bytes

end Fips180
