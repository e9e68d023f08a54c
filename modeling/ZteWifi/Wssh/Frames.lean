import Mathlib.Tactic.Ring
import ZteWifi.Net.Fields
import ZteWifi.Net.Socket
import ZteWifi.Wssh.Handshake

/-!
# WebSocket frames

`ws_send` and `ws_read_msg`, and the frames they are to write and to read: `ServerFrame` and
`ClientFrame` are those of the base framing protocol, without and with a mask.
-/

open Ascii Net

namespace Wssh

/-! ## 1. The routines -/

/-- The array `hdr` of `ws_send`. -/
def sendHeader (first : UInt8) (n : Nat) : List UInt8 :=
  if n < 126 then [first, UInt8.ofNat n]
  else if n < 65536 then [first, 126, UInt8.ofNat (n >>> 8), UInt8.ofNat (n &&& 0xFF)]
  else first :: 127 :: bigEndian 8 n

/-- `ws_send`: whether it succeeded, the bytes put on the socket, and the results left. -/
def wsSend (first : UInt8) (p : List UInt8) (ws : List Write) : Bool × List UInt8 × List Write :=
  match writeAll (sendHeader first p.length) ws with
  | (false, taken, ws) => (false, taken, ws)
  | (true, taken, ws) =>
    if p = [] then (true, taken, ws)
    else
      let (ok, more, ws) := writeAll p ws
      (ok, taken ++ more, ws)

/-- The number that bytes stand for, the highest first. -/
def number (bs : List UInt8) : Nat := bs.foldl (fun v b => v * 256 + b.toNat) 0

def unmask (mask pay : List UInt8) : List UInt8 :=
  pay.zipIdx.map fun (b, i) => b ^^^ mask.getD (i % 4) 0

/-- The mask and the payload of a message, whose length is known. -/
def readPayload (cap len : Nat) (op : UInt8) (rs : List Recv) :
    Option (UInt8 × List UInt8) × List Recv :=
  match recvExact 4 rs with
  | (none, rs) => (none, rs)
  | (some mask, rs) =>
    if len > cap then (none, rs)
    else if len = 0 then (some (op, []), rs)
    else
      match recvExact len rs with
      | (none, rs) => (none, rs)
      | (some pay, rs) => (some (op, unmask mask pay), rs)

/-- `ws_read_msg`: the opcode and the payload, unless the result is `-1`. -/
def wsReadMsg (cap : Nat) (rs : List Recv) : Option (UInt8 × List UInt8) × List Recv :=
  match recvExact 2 rs with
  | (none, rs) => (none, rs)
  | (some hdr, rs) =>
    let len7 := hdr.getD 1 0 &&& 0x7F
    -- a frame without a mask is refused
    if hdr.getD 1 0 &&& 0x80 = 0 then (none, rs)
    else
      -- a length from 126 on follows in two or eight bytes
      let ext := if len7 = 126 then 2 else if len7 = 127 then 8 else 0
      match recvExact ext rs with
      | (none, rs) => (none, rs)
      | (some bs, rs) =>
        readPayload cap (if ext = 0 then len7.toNat else number bs) (hdr.getD 0 0 &&& 0x0F) rs

/-! ## 2. Frames -/

/-- A length in the shortest of its three forms. -/
def lengthField (mask : UInt8) (n : Nat) : List UInt8 :=
  if n < 126 then [mask ||| UInt8.ofNat n]
  else if n < 65536 then (mask ||| 126) :: bigEndian 2 n
  else (mask ||| 127) :: bigEndian 8 n

/-- The three forms of a length: in seven bits, or in two or eight bytes behind them. -/
inductive LengthForm
  | seven
  | sixteen
  | sixtyFour
  deriving DecidableEq, Repr

/-- The lengths that a form can hold. -/
def LengthForm.Holds : LengthForm → Nat → Prop
  | .seven, n => n < 126
  | .sixteen, n => n < 2 ^ 16
  | .sixtyFour, n => n < 2 ^ 64

instance (form : LengthForm) (n : Nat) : Decidable (form.Holds n) :=
  match form with
  | .seven => inferInstanceAs (Decidable (n < 126))
  | .sixteen => inferInstanceAs (Decidable (n < 2 ^ 16))
  | .sixtyFour => inferInstanceAs (Decidable (n < 2 ^ 64))

def LengthForm.field : LengthForm → UInt8 → Nat → List UInt8
  | .seven, mask, n => [mask ||| UInt8.ofNat n]
  | .sixteen, mask, n => (mask ||| 126) :: bigEndian 2 n
  | .sixtyFour, mask, n => (mask ||| 127) :: bigEndian 8 n

def LengthForm.shortest (n : Nat) : LengthForm :=
  if n < 126 then .seven else if n < 65536 then .sixteen else .sixtyFour

/-- The first byte of a frame without extension bits. -/
def firstByte (fin : Bool) (opcode : UInt8) : UInt8 := (if fin then 0x80 else 0) ||| opcode

/-- A frame from the server. -/
structure ServerFrame where
  fin : Bool
  opcode : UInt8
  payload : List UInt8
  opcode_lt : opcode < 16
  length_lt : payload.length < 2 ^ 63

def ServerFrame.bytes (f : ServerFrame) : List UInt8 :=
  firstByte f.fin f.opcode :: (lengthField 0 f.payload.length ++ f.payload)

/-- A frame from the client. -/
structure ClientFrame where
  fin : Bool
  opcode : UInt8
  mask : List UInt8
  payload : List UInt8
  opcode_lt : opcode < 16
  mask_length : mask.length = 4
  length_lt : payload.length < 2 ^ 63

def ClientFrame.bytes (f : ClientFrame) : List UInt8 :=
  firstByte f.fin f.opcode ::
    (lengthField 0x80 f.payload.length ++ (f.mask ++ unmask f.mask f.payload))

/-! ## 3. Numbers and masks -/

theorem bigEndian_succ (k n : Nat) :
    bigEndian (k + 1) n = UInt8.ofNat (n >>> (k * 8)) :: bigEndian k n := by
  rw [bigEndian, List.range_succ, List.reverse_append, List.map_append]
  rfl

theorem bigEndian_length (k n : Nat) : (bigEndian k n).length = k := by
  rw [bigEndian, List.length_map, List.length_reverse, List.length_range]

theorem foldl_bigEndian (k n v : Nat) :
    (bigEndian k n).foldl (fun v b => v * 256 + b.toNat) v = v * 256 ^ k + n % 256 ^ k := by
  induction k generalizing v with
  | zero => simp [bigEndian, Nat.mod_one]
  | succ k ih =>
    have hbyte : (UInt8.ofNat (n >>> (k * 8))).toNat = n / 256 ^ k % 256 := by
      rw [UInt8.toNat_ofNat', Nat.shiftRight_eq_div_pow, Nat.mul_comm k 8, Nat.pow_mul]
    rw [bigEndian_succ, List.foldl_cons, ih, hbyte, Nat.mod_pow_succ, Nat.pow_succ']
    ring

theorem number_bigEndian {k n : Nat} (h : n < 256 ^ k) : number (bigEndian k n) = n := by
  rw [number, foldl_bigEndian, Nat.zero_mul, Nat.zero_add, Nat.mod_eq_of_lt h]

theorem unmask_length (mask pay : List UInt8) : (unmask mask pay).length = pay.length := by
  rw [unmask, List.length_map, List.length_zipIdx]

theorem unmask_unmask (mask pay : List UInt8) : unmask mask (unmask mask pay) = pay := by
  refine List.ext_getElem (by rw [unmask_length, unmask_length]) fun i _ _ => ?_
  simp only [unmask, List.getElem_map, List.getElem_zipIdx]
  rw [UInt8.xor_assoc, UInt8.xor_self, UInt8.xor_zero]

theorem LengthForm.shortest_holds {n : Nat} (h : n < 2 ^ 63) : (shortest n).Holds n := by
  rw [shortest]
  by_cases h7 : n < 126
  · rw [if_pos h7]
    exact h7
  · rw [if_neg h7]
    by_cases h16 : n < 65536
    · rw [if_pos h16]
      exact h16
    · rw [if_neg h16]
      exact Nat.lt_trans h (by decide)

theorem lengthField_eq (mask : UInt8) (n : Nat) :
    lengthField mask n = (LengthForm.shortest n).field mask n := by
  rw [lengthField, LengthForm.shortest]
  by_cases h7 : n < 126
  · rw [if_pos h7, if_pos h7]
    rfl
  · rw [if_neg h7, if_neg h7]
    by_cases h16 : n < 65536
    · rw [if_pos h16, if_pos h16]
      rfl
    · rw [if_neg h16, if_neg h16]
      rfl

/-! ## 4. Writing a frame -/

theorem sendHeader_eq (first : UInt8) (n : Nat) :
    sendHeader first n = first :: lengthField 0 n := by
  rw [sendHeader, lengthField]
  split
  · rw [UInt8.zero_or]
  · split
    · have hlow : UInt8.ofNat (n &&& 0xFF) = UInt8.ofNat (n >>> (0 * 8)) := by
        refine UInt8.toNat_inj.mp ?_
        have hmod : n &&& 0xFF = n % 2 ^ 8 := Nat.and_two_pow_sub_one_eq_mod n 8
        rw [hmod, UInt8.toNat_ofNat', UInt8.toNat_ofNat', Nat.zero_mul, Nat.shiftRight_zero,
          Nat.mod_mod]
      rw [hlow]
      rfl
    · rfl

/-- Whatever the results of the writes, a first part of the frame is put on the socket. -/
theorem wsSend_prefix (first : UInt8) (p : List UInt8) (ws : List Write) :
    (wsSend first p ws).2.1 <+: sendHeader first p.length ++ p := by
  have hhead := writeAll_isPrefix (sendHeader first p.length) ws
  rw [wsSend]
  rcases hw : writeAll (sendHeader first p.length) ws with ⟨_ | _, taken, ws'⟩
  · rw [hw] at hhead
    exact hhead.trans (List.prefix_append _ _)
  · have hall := writeAll_ok (show (writeAll (sendHeader first p.length) ws).1 = true by rw [hw])
    rw [hw] at hall
    simp only at hall ⊢
    rw [hall]
    split
    · next hp => exact List.prefix_append _ _
    · exact (List.prefix_append_right_inj _).mpr (writeAll_isPrefix p ws')

theorem wsSend_ok {first : UInt8} {p : List UInt8} {ws : List Write}
    (h : (wsSend first p ws).1 = true) :
    (wsSend first p ws).2.1 = sendHeader first p.length ++ p := by
  rw [wsSend] at h ⊢
  rcases hhead : writeAll (sendHeader first p.length) ws with ⟨_ | _, taken, left⟩
  · rw [hhead] at h
    cases h
  have hall := writeAll_ok (show (writeAll (sendHeader first p.length) ws).1 = true by rw [hhead])
  rw [hhead] at h hall
  simp only at h hall ⊢
  rw [hall]
  by_cases hnil : p = []
  · rw [if_pos hnil, hnil, List.append_nil]
  · rw [if_neg hnil] at h ⊢
    simp only
    rw [writeAll_ok h]

theorem wsSend_succeeds (first : UInt8) (p : List UInt8) {ws : List Write}
    (h : ∀ w ∈ ws, ¬ w.Fails) : (wsSend first p ws).1 = true := by
  obtain ⟨hok, hleft⟩ := writeAll_of_not_fails (sendHeader first p.length) h
  rw [wsSend]
  rcases hw : writeAll (sendHeader first p.length) ws with ⟨ok, taken, ws'⟩
  rw [hw] at hok hleft
  simp only at hok hleft
  subst hok
  simp only
  split
  · rfl
  · exact (writeAll_of_not_fails p hleft).1

theorem wsSend_of_not_fails (first : UInt8) (p : List UInt8) {ws : List Write}
    (h : ∀ w ∈ ws, ¬ w.Fails) : (wsSend first p ws).2.1 = sendHeader first p.length ++ p :=
  wsSend_ok (wsSend_succeeds first p h)

/-! ## 5. Reading a frame -/

theorem firstByte_opcode : ∀ (fin : Bool) (op : UInt8), op < 16 → firstByte fin op &&& 0x0F = op := by
  decide +kernel

theorem masked_length : ∀ b : UInt8, b < 0x80 →
    (0x80 ||| b) &&& 0x80 ≠ 0 ∧ (0x80 ||| b) &&& 0x7F = b := by
  decide +kernel

theorem ofNat_toNat {n : Nat} (h : n < 126) : (UInt8.ofNat n).toNat = n := by
  rw [UInt8.toNat_ofNat', Nat.mod_eq_of_lt (by omega)]

theorem ofNat_ne {n : Nat} (h : n < 126) {b : UInt8} (hb : 126 ≤ b.toNat) : UInt8.ofNat n ≠ b := by
  intro heq
  have hnat := ofNat_toNat h
  rw [heq] at hnat
  omega

/-- How a length in one of the three forms is read back. -/
theorem LengthForm.field_masked {form : LengthForm} {n : Nat} (hn : form.Holds n) :
    ∃ b ext, form.field 0x80 n = b :: ext ∧ b &&& 0x80 ≠ 0 ∧
      ext.length = (if b &&& 0x7F = 126 then 2 else if b &&& 0x7F = 127 then 8 else 0) ∧
      (if (if b &&& 0x7F = 126 then 2 else if b &&& 0x7F = 127 then 8 else 0) = 0
        then (b &&& 0x7F).toNat else number ext) = n := by
  cases form with
  | seven =>
    have hlt : UInt8.ofNat n < 0x80 := by
      rw [UInt8.lt_iff_toNat_lt, ofNat_toNat hn]
      exact Nat.lt_trans hn (by decide)
    obtain ⟨hbit, hlow⟩ := masked_length _ hlt
    have h126 := ofNat_ne hn (show 126 ≤ (126 : UInt8).toNat by decide)
    have h127 := ofNat_ne hn (show 126 ≤ (127 : UInt8).toNat by decide)
    refine ⟨_, [], rfl, hbit, ?_, ?_⟩
    · rw [hlow, if_neg h126, if_neg h127, List.length_nil]
    · rw [hlow, if_neg h126, if_neg h127, if_pos rfl, ofNat_toNat hn]
  | sixteen =>
    refine ⟨_, _, rfl, by decide, ?_, ?_⟩
    · rw [if_pos (by decide), bigEndian_length]
    · rw [if_neg (by decide), number_bigEndian hn]
  | sixtyFour =>
    refine ⟨_, _, rfl, by decide, ?_, ?_⟩
    · rw [if_neg (by decide), if_pos (by decide), bigEndian_length]
    · rw [if_neg (by decide), number_bigEndian hn]

/-- Any first byte and a length are read, whatever follows. -/
theorem wsReadMsg_field (cap : Nat) {form : LengthForm} {n : Nat} (hn : form.Holds n)
    {first : UInt8} {rs : List Recv} {s : List UInt8} (h : Arrives rs (first :: (form.field 0x80 n ++ s))) :
    ∃ rs', wsReadMsg cap rs = readPayload cap n (first &&& 0x0F) rs' ∧ Arrives rs' s := by
  obtain ⟨b, ext, hfield, hbit, hext, hlen⟩ := LengthForm.field_masked hn
  rw [hfield] at h
  obtain ⟨rs₁, hrun₁, h₁⟩ := recvExact_arrives (n := 2) (a := [first, b]) (b := ext ++ s) h rfl
  obtain ⟨rs₂, hrun₂, h₂⟩ := recvExact_arrives h₁ hext
  refine ⟨rs₂, ?_, h₂⟩
  rw [wsReadMsg, hrun₁]
  simp only [List.getD_cons_zero, List.getD_cons_succ, if_neg hbit, hrun₂, hlen]

/-- The header of a frame is read, whatever the frame holds. -/
theorem wsReadMsg_header (cap : Nat) {f : ClientFrame} {rs : List Recv} {s : List UInt8}
    (h : Arrives rs (f.bytes ++ s)) :
    ∃ rs', wsReadMsg cap rs = readPayload cap f.payload.length f.opcode rs' ∧
      Arrives rs' (f.mask ++ (unmask f.mask f.payload ++ s)) := by
  rw [ClientFrame.bytes, lengthField_eq] at h
  simp only [List.cons_append, List.append_assoc] at h
  have hread := wsReadMsg_field cap (LengthForm.shortest_holds f.length_lt) h
  rwa [firstByte_opcode f.fin f.opcode f.opcode_lt] at hread

/-- Mask and payload are read, whatever follows. -/
theorem readPayload_arrives {cap : Nat} (op : UInt8) {mask pay : List UInt8} {rs : List Recv}
    {s : List UInt8} (hmask : mask.length = 4) (hcap : pay.length ≤ cap)
    (h : Arrives rs (mask ++ (unmask mask pay ++ s))) :
    ∃ rs', readPayload cap pay.length op rs = (some (op, pay), rs') ∧ Arrives rs' s := by
  obtain ⟨rs₁, hrun₁, h₁⟩ := recvExact_arrives h hmask
  obtain ⟨rs₂, hrun₂, h₂⟩ := recvExact_arrives h₁ (unmask_length mask pay)
  rw [readPayload, hrun₁]
  simp only [if_neg (Nat.not_lt.mpr hcap)]
  by_cases hnil : pay = []
  · subst hnil
    exact ⟨rs₁, if_pos rfl, h₁⟩
  · rw [if_neg fun hzero => hnil (List.eq_nil_of_length_eq_zero hzero), hrun₂]
    exact ⟨rs₂, by simp only [unmask_unmask], h₂⟩

/-- A frame that fits is read as it was meant, and nothing behind it is touched. -/
theorem wsReadMsg_arrives {cap : Nat} {f : ClientFrame} {rs : List Recv} {s : List UInt8}
    (h : Arrives rs (f.bytes ++ s)) (hcap : f.payload.length ≤ cap) :
    ∃ rs', wsReadMsg cap rs = (some (f.opcode, f.payload), rs') ∧ Arrives rs' s := by
  obtain ⟨rs', hread, hrest⟩ := wsReadMsg_header cap h
  rw [hread]
  exact readPayload_arrives f.opcode f.mask_length hcap hrest

/-- A frame that does not fit is refused. -/
theorem wsReadMsg_too_long {cap : Nat} {f : ClientFrame} {rs : List Recv} {s : List UInt8}
    (h : Arrives rs (f.bytes ++ s)) (hcap : cap < f.payload.length) :
    ∃ rs', wsReadMsg cap rs = (none, rs') := by
  obtain ⟨rs₂, hread, h₂⟩ := wsReadMsg_header cap h
  obtain ⟨rs₃, hrun₃, -⟩ := recvExact_arrives h₂ f.mask_length
  refine ⟨rs₃, ?_⟩
  rw [hread, readPayload, hrun₃]
  simp only [if_pos hcap]

end Wssh
