import Mathlib.Algebra.Group.Nat.Defs
import ZteWifi.Net.Fields
import ZteWifi.Net.Socket

/-!
# The upgrade request

`ws_handshake` of `wssh.c`, with the SHA-1 and the Base64 encoder it carries.
-/

open Ascii Net

namespace Wssh

/-! ## 1. SHA-1 -/

structure Sha1Ctx where
  state : List UInt32
  count : UInt32 × UInt32
  buf : List UInt8

def rol32 (x n : UInt32) : UInt32 := (x <<< n) ||| (x >>> (32 - n))

/-- Four bytes, the highest first. -/
def word (b : List UInt8) (i : Nat) : UInt32 :=
  (b.getD i 0).toUInt32 <<< 24 ||| (b.getD (i + 1) 0).toUInt32 <<< 16 |||
    (b.getD (i + 2) 0).toUInt32 <<< 8 ||| (b.getD (i + 3) 0).toUInt32

/-- The array `w` of `sha1_blk`. -/
def schedule (b : List UInt8) : List UInt32 :=
  (List.range 64).foldl (fun w j =>
    let i := j + 16
    w ++ [rol32 (w.getD (i - 3) 0 ^^^ w.getD (i - 8) 0 ^^^ w.getD (i - 14) 0 ^^^
      w.getD (i - 16) 0) 1]) ((List.range 16).map fun i => word b (i * 4))

/-- The variables `a`, `bb`, `c`, `d`, `e` of `sha1_blk`. -/
structure Sha1Regs where
  a : UInt32
  bb : UInt32
  c : UInt32
  d : UInt32
  e : UInt32

def sha1Round (i : Nat) (w : UInt32) (r : Sha1Regs) : Sha1Regs :=
  let (f, k) :=
    if i < 20 then ((r.bb &&& r.c) ||| (~~~ r.bb &&& r.d), (0x5A827999 : UInt32))
    else if i < 40 then (r.bb ^^^ r.c ^^^ r.d, 0x6ED9EBA1)
    else if i < 60 then ((r.bb &&& r.c) ||| (r.bb &&& r.d) ||| (r.c &&& r.d), 0x8F1BBCDC)
    else (r.bb ^^^ r.c ^^^ r.d, 0xCA62C1D6)
  let t := rol32 r.a 5 + f + r.e + k + w
  { a := t, bb := r.a, c := rol32 r.bb 30, d := r.c, e := r.d }

def sha1Blk (s : List UInt32) (b : List UInt8) : List UInt32 :=
  let start : Sha1Regs := ⟨s.getD 0 0, s.getD 1 0, s.getD 2 0, s.getD 3 0, s.getD 4 0⟩
  let r := (schedule b).zipIdx.foldl (fun r (w, i) => sha1Round i w r) start
  [start.a + r.a, start.bb + r.bb, start.c + r.c, start.d + r.d, start.e + r.e]

def sha1Init : Sha1Ctx :=
  ⟨[0x67452301, 0xEFCDAB89, 0x98BADCFE, 0x10325476, 0xC3D2E1F0], (0, 0), List.replicate 64 0⟩

/-- `memcpy(x->buf + i, p, n)` -/
def Sha1Ctx.store (x : Sha1Ctx) (i : Nat) (p : List UInt8) : List UInt8 :=
  x.buf.take i ++ p ++ x.buf.drop (i + p.length)

/-- The bit count after `n` more bytes. -/
def Sha1Ctx.counted (x : Sha1Ctx) (n : Nat) : UInt32 × UInt32 :=
  let v := UInt32.ofNat (n * 8)
  let high := if x.count.1 + v < x.count.1 then x.count.2 + 1 else x.count.2
  (x.count.1 + v, high + UInt32.ofNat (n / 2 ^ 29))

/-- The whole blocks of the input, one after another, and what is left. -/
def sha1Blocks : Nat → List UInt32 → List UInt8 → List UInt32 × List UInt8
  | 0, s, p => (s, p)
  | n + 1, s, p =>
    if p.length ≥ 64 then sha1Blocks n (sha1Blk s (p.take 64)) (p.drop 64) else (s, p)

def sha1Upd (x : Sha1Ctx) (p : List UInt8) : Sha1Ctx :=
  let i := (x.count.1 >>> 3 &&& 63).toNat
  let count := x.counted p.length
  -- the bytes do not fill the block that has begun
  if i ≠ 0 ∧ p.length < 64 - i then { x with count := count, buf := x.store i p }
  else
    let head := if i = 0 then 0 else 64 - i
    let buf := x.store i (p.take head)
    let state := if i = 0 then x.state else sha1Blk x.state buf
    let (state, rest) := sha1Blocks p.length state (p.drop head)
    ⟨state, count, rest ++ buf.drop rest.length⟩

/-- The bytes of a word, the highest first. -/
def bigEndian (n : Nat) (v : Nat) : List UInt8 :=
  (List.range n).reverse.map fun j => UInt8.ofNat (v >>> (j * 8))

def sha1Fin (x : Sha1Ctx) : List UInt8 :=
  let i := (x.count.1 >>> 3 &&& 63).toNat
  let padlen := if i < 56 then 56 - i else 120 - i
  let bits := x.count.2.toNat * 2 ^ 32 + x.count.1.toNat
  let data := 0x80 :: (List.replicate (padlen - 1) 0 ++ bigEndian 8 bits)
  (sha1Upd x data).state.flatMap fun w => bigEndian 4 w.toNat

/-! ## 2. Base64 -/

/-- `B64_TAB` -/
def b64Tab : List UInt8 :=
  bytes "ABCDEFGHIJKLMNOPQRSTUVWXYZabcdefghijklmnopqrstuvwxyz0123456789+/"

def b64Char (i : UInt8) : UInt8 := b64Tab.getD i.toNat 0

def b64Body : List UInt8 → List UInt8
  | a :: b :: c :: s =>
    b64Char (a >>> 2 &&& 63) :: b64Char ((a &&& 3) <<< 4 ||| b >>> 4) ::
      b64Char ((b &&& 15) <<< 2 ||| c >>> 6) :: b64Char (c &&& 63) :: b64Body s
  | [a, b] =>
    [b64Char (a >>> 2 &&& 63), b64Char ((a &&& 3) <<< 4 ||| b >>> 4),
      b64Char ((b &&& 15) <<< 2), 0x3D]
  | [a] => [b64Char (a >>> 2 &&& 63), b64Char ((a &&& 3) <<< 4), 0x3D, 0x3D]
  | [] => []

/-- `b64_enc` without the NUL; `none` is the result `-1`. -/
def b64Enc (s : List UInt8) (outsz : Nat) : Option (List UInt8) :=
  if outsz < (s.length + 2) / 3 * 4 + 1 then none else some (b64Body s)

/-! ## 3. The handshake -/

/-- `WS_GUID` -/
def wsGuid : List UInt8 := bytes "258EAFA5-E914-47DA-95CA-C5AB0DC85B11"

/-- `main` takes the branch of the upgrade. -/
def wantsUpgrade (p : List UInt8) : Bool :=
  match getHdr p (bytes "Upgrade") 32 with
  | some up => sameText up (bytes "websocket")
  | none => false

/-- The checks of `ws_handshake` on the header, and the key it takes from it. -/
def handshakeKey (p : List UInt8) : Option (List UInt8) :=
  if p.length < 5 ∨ ¬ bytes "GET " <+: p then none
  else if ¬ wantsUpgrade p then none
  else
    match getHdr p (bytes "Connection") 256 with
    | none => none
    | some conn =>
      if ¬ ciHas conn (bytes "upgrade") then none
      else
        match getHdr p (bytes "sec-websocket-key") 256 with
        | none => none
        | some key =>
          if key.length ≠ 24 ∨ key.getD 22 0 ≠ 0x3D ∨ key.getD 23 0 ≠ 0x3D then none else some key

def crlf : List UInt8 := [0x0D, nl]

/-- The text of the 101 response. -/
def acceptResponse (acc : List UInt8) : List UInt8 :=
  bytes "HTTP/1.1 101 Switching Protocols" ++ crlf ++ bytes "Upgrade: websocket" ++ crlf ++
    bytes "Connection: Upgrade" ++ crlf ++ bytes "Sec-WebSocket-Accept: " ++ acc ++ crlf ++ crlf

/-- `ws_handshake` on the header: whether it succeeded, and the bytes it has put on the socket. -/
def wsHandshake (p : List UInt8) (ws : List Write) : Bool × List UInt8 :=
  match handshakeKey p with
  | none => (false, [])
  | some key =>
    match b64Enc (sha1Fin (sha1Upd (sha1Upd sha1Init key) wsGuid)) 64 with
    | none => (false, [])
    | some acc =>
      if (acceptResponse acc).length ≥ 512 then (false, [])
      else
        let (ok, sent, _) := writeAll (acceptResponse acc) ws
        (ok, sent)

/-! ## 4. The answer fits -/

theorem sha1Blocks_length (n : Nat) {s : List UInt32} (hs : s.length = 5) (p : List UInt8) :
    (sha1Blocks n s p).1.length = 5 := by
  induction n generalizing s p with
  | zero => exact hs
  | succ n ih =>
    rw [sha1Blocks]
    split
    · exact ih rfl _
    · exact hs

theorem sha1Upd_length {x : Sha1Ctx} (hx : x.state.length = 5) (p : List UInt8) :
    (sha1Upd x p).state.length = 5 := by
  rw [sha1Upd]
  simp only
  split
  · exact hx
  · refine sha1Blocks_length p.length ?_ _
    split
    · exact hx
    · rfl

theorem flatMap_bigEndian_length (k : Nat) (ws : List UInt32) :
    (ws.flatMap fun w => bigEndian k w.toNat).length = k * ws.length := by
  induction ws with
  | nil => rfl
  | cons w ws ih =>
    rw [List.flatMap_cons, List.length_append, ih, bigEndian, List.length_map, List.length_reverse,
      List.length_range, List.length_cons, Nat.mul_succ, Nat.add_comm]

/-- The digest has 20 bytes. -/
theorem sha1Fin_length {x : Sha1Ctx} (hx : x.state.length = 5) : (sha1Fin x).length = 20 := by
  rw [sha1Fin, flatMap_bigEndian_length, sha1Upd_length hx]

theorem b64Body_length (s : List UInt8) : (b64Body s).length = (s.length + 2) / 3 * 4 := by
  induction s using b64Body.induct with
  | case1 a b c s ih =>
    simp only [b64Body, List.length_cons, ih]
    omega
  | case2 a b => simp [b64Body]
  | case3 a => simp [b64Body]
  | case4 => rfl

theorem wantsUpgrade_of_key {p key : List UInt8} (h : handshakeKey p = some key) :
    wantsUpgrade p = true := by
  rw [handshakeKey] at h
  split at h
  · cases h
  split at h
  · cases h
  · next hwants => exact not_not.mp hwants

/-- A request with a key is answered, unless writing fails. -/
theorem wsHandshake_ok {p key : List UInt8} (h : handshakeKey p = some key) {ws : List Write}
    (hws : ∀ w ∈ ws, ¬ w.Fails) : (wsHandshake p ws).1 = true := by
  have hdigest : (sha1Fin (sha1Upd (sha1Upd sha1Init key) wsGuid)).length = 20 :=
    sha1Fin_length (sha1Upd_length (sha1Upd_length rfl key) wsGuid)
  rw [wsHandshake, h]
  simp only
  generalize sha1Fin (sha1Upd (sha1Upd sha1Init key) wsGuid) = digest at hdigest
  have hacc : (b64Body digest).length = 28 := by rw [b64Body_length, hdigest]
  have hshort : ¬ (acceptResponse (b64Body digest)).length ≥ 512 := by
    simp only [acceptResponse, List.length_append, hacc]
    decide
  rw [b64Enc, hdigest, if_neg (by decide)]
  simp only [if_neg hshort]
  exact (writeAll_of_not_fails _ hws).1

end Wssh
