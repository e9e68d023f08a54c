import ZteWifi.Wssh.Frames

/-!
# The codec on a buffer

`ws_read_msg` as it works on the caller's buffer and on machine integers: the length is put together
in 64 bits and compared with the capacity there, and only then narrowed to a `size_t` and to an
`int`.  It refines `wsReadMsg`.  Then what holds of frames one after another, in whatever chunks they
arrive, and of what `ws_send` writes.
-/

open Ascii Net

namespace Wssh

/-! ## 1. Receiving into a buffer -/

/-- A buffer after bytes are put at its start. -/
def store (pay bs : List UInt8) : List UInt8 := bs ++ pay.drop bs.length

/-- The loop of `recv_exact`, with what it has received when it gives up. -/
def recvIntoLoop (n : Nat) (got : List UInt8) : List Recv → Bool × List UInt8 × List Recv
  | [] => if got.length < n then (false, got, []) else (true, got, [])
  | r :: later =>
    if got.length < n then
      match r with
      | .intr => recvIntoLoop n got later
      | .error => (false, got, later)
      | .data bs =>
        if bs = [] then (false, got, later)
        else if bs.length ≤ n - got.length then recvIntoLoop n (got ++ bs) later
        else (true, got ++ bs.take (n - got.length), unread (n - got.length) bs later)
    else (true, got, r :: later)

/-- `recv_exact` into a buffer: whether it succeeded, the buffer, and the results left. -/
def recvInto (n : Nat) (pay : List UInt8) (rs : List Recv) : Bool × List UInt8 × List Recv :=
  match recvIntoLoop n [] rs with
  | (ok, got, rs) => (ok, store pay got, rs)

/-- The loops differ in what they say of a failure alone. -/
theorem recvIntoLoop_spec (n : Nat) (got : List UInt8) (rs : List Recv) :
    recvExactLoop n got rs =
      (if (recvIntoLoop n got rs).1 then some (recvIntoLoop n got rs).2.1 else none,
        (recvIntoLoop n got rs).2.2) := by
  induction rs generalizing got with
  | nil =>
    rw [recvExactLoop, recvIntoLoop]
    split <;> rfl
  | cons r rs ih =>
    rw [recvExactLoop.eq_def, recvIntoLoop.eq_def]
    simp only
    by_cases hfull : got.length < n
    · rw [if_pos hfull, if_pos hfull]
      cases r with
      | intr => exact ih got
      | error => rfl
      | data bs =>
        simp only
        by_cases hnil : bs = []
        · rw [if_pos hnil, if_pos hnil]
          rfl
        · rw [if_neg hnil, if_neg hnil]
          split
          · exact ih (got ++ bs)
          · rfl
    · rw [if_neg hfull, if_neg hfull]
      rfl

theorem recvInto_some {n : Nat} {bs : List UInt8} {rs rs' : List Recv}
    (h : recvExact n rs = (some bs, rs')) (pay : List UInt8) :
    recvInto n pay rs = (true, store pay bs, rs') := by
  rw [recvExact, recvIntoLoop_spec] at h
  rw [recvInto]
  rcases hloop : recvIntoLoop n [] rs with ⟨_ | _, got, left⟩ <;> rw [hloop] at h
  · cases h
  · cases h
    rfl

theorem recvInto_none {n : Nat} {rs rs' : List Recv} (h : recvExact n rs = (none, rs'))
    (pay : List UInt8) : ∃ got, recvInto n pay rs = (false, store pay got, rs') := by
  rw [recvExact, recvIntoLoop_spec] at h
  rw [recvInto]
  rcases hloop : recvIntoLoop n [] rs with ⟨_ | _, got, left⟩ <;> rw [hloop] at h
  · cases h
    exact ⟨got, rfl⟩
  · cases h

/-! ## 2. `ws_read_msg` -/

/-- A 64-bit number as a `size_t`, which has 32 bits on the device. -/
def toSize (len : UInt64) : Nat := len.toNat % 2 ^ 32

/-- A 64-bit number as an `int`. -/
def toInt (len : UInt64) : Int := Int.bmod len.toNat (2 ^ 32)

/-- The length of a frame, of which `b` is the second byte. -/
def readLength (b : UInt8) (rs : List Recv) : Option UInt64 × List Recv :=
  let len := (b &&& 0x7F).toUInt64
  if len = 126 then
    match recvExact 2 rs with
    | (none, rs) => (none, rs)
    | (some ext, rs) => (some ((ext.getD 0 0).toUInt64 <<< 8 ||| (ext.getD 1 0).toUInt64), rs)
  else if len = 127 then
    match recvExact 8 rs with
    | (none, rs) => (none, rs)
    | (some ext, rs) => (some (ext.foldl (fun len b => len <<< 8 ||| b.toUInt64) 0), rs)
  else (some len, rs)

/-- The loop over the first `n` bytes of the buffer. -/
def unmaskFirst (n : Int) (mask pay : List UInt8) : List UInt8 :=
  pay.zipIdx.map fun (b, i) => if (i : Int) < n then b ^^^ mask.getD (i &&& 3) 0 else b

/-- What a call of `ws_read_msg` leaves: its result, `*op`, the buffer, and the script. -/
structure MsgRead where
  ret : Int
  op : UInt8
  pay : List UInt8
  left : List Recv
  deriving DecidableEq, Repr

/-- The mask and the payload of a message, whose length is known. -/
def readPayloadInto (cap : Nat) (len : UInt64) (op : UInt8) (pay : List UInt8) (rs : List Recv) :
    MsgRead :=
  match recvExact 4 rs with
  | (none, rs) => ⟨-1, op, pay, rs⟩
  | (some mask, rs) =>
    -- on all 64 bits, before anything is cut off
    if len > UInt64.ofNat cap then ⟨-1, op, pay, rs⟩
    else if len = 0 then ⟨0, op, pay, rs⟩
    else
      match recvInto (toSize len) pay rs with
      | (false, pay, rs) => ⟨-1, op, pay, rs⟩
      | (true, pay, rs) => ⟨toInt len, op, unmaskFirst (toInt len) mask pay, rs⟩

/-- `ws_read_msg` with the old values of `*op` and of the buffer. -/
def wsReadMsgInto (cap : Nat) (op : UInt8) (pay : List UInt8) (rs : List Recv) : MsgRead :=
  match recvExact 2 rs with
  | (none, rs) => ⟨-1, op, pay, rs⟩
  | (some hdr, rs) =>
    let op := hdr.getD 0 0 &&& 0x0F
    if hdr.getD 1 0 &&& 0x80 = 0 then ⟨-1, op, pay, rs⟩
    else
      match readLength (hdr.getD 1 0) rs with
      | (none, rs) => ⟨-1, op, pay, rs⟩
      | (some len, rs) => readPayloadInto cap len op pay rs

/-! ## 3. The refinement -/

theorem toNat_shift_or {len : UInt64} (b : UInt8) (h : len.toNat < 2 ^ 56) :
    (len <<< 8 ||| b.toUInt64).toNat = len.toNat * 256 + b.toNat := by
  have hb : b.toNat < 2 ^ 8 := b.toNat_lt
  have hshift : (len <<< 8).toNat = len.toNat <<< 8 := by
    rw [UInt64.toNat_shiftLeft, show (8 : UInt64).toNat % 64 = 8 from rfl, Nat.mod_eq_of_lt]
    rw [Nat.shiftLeft_eq]
    omega
  rw [UInt64.toNat_or, UInt8.toNat_toUInt64, hshift, ← Nat.shiftLeft_add_eq_or_of_lt hb,
    Nat.shiftLeft_eq]

/-- As long as no bit is shifted out, the bytes are put together to their number. -/
theorem toNat_foldl_shift (bs : List UInt8) (len : UInt64)
    (h : (len.toNat + 1) * 256 ^ bs.length ≤ 2 ^ 64) :
    (bs.foldl (fun (len : UInt64) b => len <<< 8 ||| b.toUInt64) len).toNat =
      bs.foldl (fun v b => v * 256 + b.toNat) len.toNat := by
  induction bs generalizing len with
  | nil => rfl
  | cons b bs ih =>
    have hpos : 1 ≤ 256 ^ bs.length := Nat.one_le_two_pow.trans (Nat.pow_le_pow_left (by decide) _)
    -- another byte is to come, so the top byte of the sum is still free
    have hlen : len.toNat < 2 ^ 56 := by
      rw [List.length_cons, Nat.pow_succ] at h
      have hle := Nat.mul_le_mul_left (len.toNat + 1) (Nat.mul_le_mul_right 256 hpos)
      omega
    have hstep := toNat_shift_or b hlen
    rw [List.foldl_cons, List.foldl_cons, ih, hstep]
    rw [hstep]
    -- the room for the other bytes
    calc (len.toNat * 256 + b.toNat + 1) * 256 ^ bs.length
        ≤ ((len.toNat + 1) * 256) * 256 ^ bs.length :=
          Nat.mul_le_mul_right _ (by have := b.toNat_lt; omega)
      _ = (len.toNat + 1) * 256 ^ (b :: bs).length := by
          rw [List.length_cons, Nat.pow_succ]
          ring
      _ ≤ 2 ^ 64 := h

/-- The length in 64 bits is the one that `wsReadMsg` takes. -/
theorem readLength_spec (b : UInt8) (rs : List Recv) :
    let ext := if b &&& 0x7F = 126 then 2 else if b &&& 0x7F = 127 then 8 else 0
    (∀ rs', recvExact ext rs = (none, rs') → readLength b rs = (none, rs')) ∧
      ∀ bs rs', recvExact ext rs = (some bs, rs') → ∃ len, readLength b rs = (some len, rs') ∧
        len.toNat = if ext = 0 then (b &&& 0x7F).toNat else number bs := by
  have hcmp (c : UInt8) : (b &&& 0x7F).toUInt64 = c.toUInt64 ↔ b &&& 0x7F = c :=
    UInt8.toUInt64_inj
  have h126 : (b &&& 0x7F).toUInt64 = 126 ↔ b &&& 0x7F = 126 := hcmp 126
  have h127 : (b &&& 0x7F).toUInt64 = 127 ↔ b &&& 0x7F = 127 := hcmp 127
  simp only [readLength]
  by_cases hsixteen : b &&& 0x7F = 126
  · rw [if_pos hsixteen, if_pos (h126.mpr hsixteen)]
    refine ⟨fun rs' hrun => by rw [hrun], fun bs rs' hrun => ?_⟩
    obtain ⟨b₁, b₂, rfl⟩ := List.length_eq_two.mp (recvExact_length hrun)
    rw [hrun]
    refine ⟨_, rfl, ?_⟩
    have hb₁ : b₁.toUInt64.toNat < 2 ^ 56 := by
      rw [UInt8.toNat_toUInt64]
      exact Nat.lt_trans b₁.toNat_lt (by decide)
    rw [if_neg (by decide), List.getD_cons_zero, List.getD_cons_succ, List.getD_cons_zero,
      toNat_shift_or b₂ hb₁, UInt8.toNat_toUInt64, number, List.foldl_cons, List.foldl_cons,
      List.foldl_nil, Nat.zero_mul, Nat.zero_add]
  rw [if_neg hsixteen, if_neg fun h => hsixteen (h126.mp h)]
  by_cases hsixtyFour : b &&& 0x7F = 127
  · rw [if_pos hsixtyFour, if_pos (h127.mpr hsixtyFour)]
    refine ⟨fun rs' hrun => by rw [hrun], fun bs rs' hrun => ?_⟩
    rw [hrun]
    refine ⟨_, rfl, ?_⟩
    rw [if_neg (by decide), toNat_foldl_shift bs 0 (by rw [recvExact_length hrun]; decide)]
    rfl
  · rw [if_neg hsixtyFour, if_neg fun h => hsixtyFour (h127.mp h)]
    -- nothing is received for a length in seven bits
    have hnone : recvExact 0 rs = (some [], rs) := recvExactLoop_full (by decide) rs
    refine ⟨fun rs' hrun => ?_, fun bs rs' hrun => ?_⟩
    · rw [hnone] at hrun
      cases hrun
    · rw [hnone] at hrun
      cases hrun
      exact ⟨_, rfl, by rw [if_pos rfl, UInt8.toNat_toUInt64]⟩

theorem unmaskFirst_store (mask pay bs : List UInt8) :
    unmaskFirst bs.length mask (store pay bs) = store pay (unmask mask bs) := by
  have hand (i : Nat) : i &&& 3 = i % 4 := Nat.and_two_pow_sub_one_eq_mod i 2
  have hlen := unmask_length mask bs
  apply List.ext_getElem
  · rw [unmaskFirst, List.length_map, List.length_zipIdx, store, store, hlen, List.length_append,
      List.length_append, hlen]
  · intro i hi hi'
    simp only [unmaskFirst, store, List.getElem_map, List.getElem_zipIdx, hand, hlen, Nat.zero_add]
    by_cases hlt : i < bs.length
    · rw [if_pos (by omega), List.getElem_append_left hlt,
        List.getElem_append_left (by rw [hlen]; exact hlt)]
      simp only [unmask, List.getElem_map, List.getElem_zipIdx, Nat.zero_add]
    · rw [if_neg (by omega), List.getElem_append_right (by omega),
        List.getElem_append_right (by rw [hlen]; omega)]
      simp only [hlen]

/-- A length that an `int` can hold is narrowed without loss. -/
theorem narrow {len : UInt64} (h : len.toNat < 2 ^ 31) :
    toSize len = len.toNat ∧ toInt len = len.toNat := by
  constructor
  · rw [toSize, Nat.mod_eq_of_lt]
    omega
  · apply Int.bmod_eq_of_le
    · omega
    · omega

/-- What a call leaves beside what is read from the script. -/
def MsgRead.Refines (pay : List UInt8) (r : MsgRead) :
    Option (UInt8 × List UInt8) × List Recv → Prop
  | (none, rs) => r.ret = -1 ∧ r.left = rs
  | (some (op, p), rs) => r.ret = p.length ∧ r.op = op ∧ r.pay = store pay p ∧ r.left = rs

theorem gt_ofNat {cap : Nat} (hcap : cap < 2 ^ 31) (len : UInt64) :
    len > UInt64.ofNat cap ↔ cap < len.toNat := by
  rw [gt_iff_lt, UInt64.lt_iff_toNat_lt, UInt64.toNat_ofNat', Nat.mod_eq_of_lt (by omega)]

theorem readPayloadInto_refines {cap : Nat} (hcap : cap < 2 ^ 31) (len : UInt64) (op : UInt8)
    (pay : List UInt8) (rs : List Recv) :
    (readPayloadInto cap len op pay rs).Refines pay (readPayload cap len.toNat op rs) := by
  rw [readPayloadInto, readPayload]
  rcases recvExact 4 rs with ⟨_ | mask, rs₁⟩
  · exact ⟨rfl, rfl⟩
  simp only
  -- the three ends of the routine: too long, empty, and a payload
  by_cases hlong : cap < len.toNat
  · rw [if_pos hlong, if_pos ((gt_ofNat hcap len).mpr hlong)]
    exact ⟨rfl, rfl⟩
  rw [if_neg hlong, if_neg fun h => hlong ((gt_ofNat hcap len).mp h)]
  by_cases hzero : len = 0
  · subst hzero
    exact ⟨rfl, rfl, rfl, rfl⟩
  rw [if_neg hzero, if_neg fun h : len.toNat = 0 => hzero (UInt64.toNat_inj.mp h)]
  -- what is not longer than the buffer is an `int`
  obtain ⟨hsize, hint⟩ := narrow (show len.toNat < 2 ^ 31 by omega)
  rw [hsize, hint]
  rcases hrun : recvExact len.toNat rs₁ with ⟨_ | bs, rs₂⟩
  · obtain ⟨got, hinto⟩ := recvInto_none hrun pay
    rw [hinto]
    exact ⟨rfl, rfl⟩
  · have hlen := recvExact_length hrun
    rw [recvInto_some hrun pay]
    refine ⟨?_, rfl, ?_, rfl⟩
    · rw [unmask_length, hlen]
    · rw [← hlen]
      exact unmaskFirst_store mask pay bs

/-- On the caller's buffer `ws_read_msg` does what `wsReadMsg` says. -/
theorem wsReadMsgInto_refines {cap : Nat} (hcap : cap < 2 ^ 31) (op : UInt8) (pay : List UInt8)
    (rs : List Recv) : (wsReadMsgInto cap op pay rs).Refines pay (wsReadMsg cap rs) := by
  rw [wsReadMsgInto, wsReadMsg]
  rcases recvExact 2 rs with ⟨_ | hdr, rs₁⟩
  · exact ⟨rfl, rfl⟩
  simp only
  by_cases hmask : hdr.getD 1 0 &&& 0x80 = 0
  · rw [if_pos hmask, if_pos hmask]
    exact ⟨rfl, rfl⟩
  rw [if_neg hmask, if_neg hmask]
  -- both read as many bytes of the length
  obtain ⟨hnone, hsome⟩ := readLength_spec (hdr.getD 1 0) rs₁
  generalize (if hdr.getD 1 0 &&& 0x7F = 126 then 2
    else if hdr.getD 1 0 &&& 0x7F = 127 then 8 else 0) = ext at hnone hsome ⊢
  rcases hrun : recvExact ext rs₁ with ⟨_ | bs, rs₂⟩
  · rw [hnone rs₂ hrun]
    exact ⟨rfl, rfl⟩
  · obtain ⟨len, hread, hnat⟩ := hsome bs rs₂ hrun
    rw [hread]
    simp only
    rw [← hnat]
    exact readPayloadInto_refines hcap len _ pay rs₂

/-! ## 4. Frames one after another -/

/-- A frame from the client with any first byte and its length in any form that holds it. -/
structure MaskedFrame where
  first : UInt8
  form : LengthForm
  mask : List UInt8
  payload : List UInt8
  mask_length : mask.length = 4
  holds : form.Holds payload.length

def MaskedFrame.bytes (f : MaskedFrame) : List UInt8 :=
  f.first :: (f.form.field 0x80 f.payload.length ++ (f.mask ++ unmask f.mask f.payload))

/-- A call has read the frame, into a buffer that held `pay`, and nothing of `s` behind it. -/
def MsgRead.Reads (r : MsgRead) (f : MaskedFrame) (pay s : List UInt8) : Prop :=
  r.ret = f.payload.length ∧ r.op = f.first &&& 0x0F ∧ r.pay = store pay f.payload ∧
    Arrives r.left s

/-- Calls one after another, with what `*op` and the buffer hold before each. -/
def wsReadMsgs (cap : Nat) : List (UInt8 × List UInt8) → List Recv → List MsgRead
  | [], _ => []
  | (op, pay) :: calls, rs =>
    let r := wsReadMsgInto cap op pay rs
    r :: wsReadMsgs cap calls r.left

theorem wsReadMsgInto_reads {cap : Nat} (hcap : cap < 2 ^ 31) (op : UInt8) (pay : List UInt8)
    {f : MaskedFrame} (hf : f.payload.length ≤ cap) {rs : List Recv} {s : List UInt8}
    (h : Arrives rs (f.bytes ++ s)) : (wsReadMsgInto cap op pay rs).Reads f pay s := by
  rw [MaskedFrame.bytes] at h
  simp only [List.cons_append, List.append_assoc] at h
  obtain ⟨rs₁, hread, h₁⟩ := wsReadMsg_field cap f.holds h
  obtain ⟨rs₂, hpay, h₂⟩ := readPayload_arrives (f.first &&& 0x0F) f.mask_length hf h₁
  have hrefines := wsReadMsgInto_refines hcap op pay rs
  rw [hread, hpay] at hrefines
  obtain ⟨hret, hop, hbuf, hleft⟩ := hrefines
  refine ⟨hret, hop, hbuf, ?_⟩
  rw [hleft]
  exact h₂

/-- The reader stays in step: call by call it reads frame by frame. -/
theorem wsReadMsgs_reads {cap : Nat} (hcap : cap < 2 ^ 31) (fs : List MaskedFrame)
    (hfs : ∀ f ∈ fs, f.payload.length ≤ cap) (calls : List (UInt8 × List UInt8))
    (hcalls : calls.length = fs.length) {rs : List Recv} {s : List UInt8}
    (h : Arrives rs (fs.flatMap MaskedFrame.bytes ++ s)) (i : Nat) (f : MaskedFrame)
    (hi : fs[i]? = some f) :
    ∃ r call, (wsReadMsgs cap calls rs)[i]? = some r ∧ calls[i]? = some call ∧
      r.Reads f call.2 ((fs.drop (i + 1)).flatMap MaskedFrame.bytes ++ s) := by
  induction fs generalizing calls rs i with
  | nil => cases hi
  | cons g fs ih =>
    obtain ⟨⟨op, pay⟩, calls, rfl⟩ := List.exists_cons_of_length_eq_add_one hcalls
    rw [List.flatMap_cons, List.append_assoc] at h
    have hread := wsReadMsgInto_reads hcap op pay (hfs g List.mem_cons_self) h
    -- the first call reads `g`, and the others start where it has stopped
    cases i with
    | zero =>
      cases hi
      exact ⟨_, _, rfl, rfl, hread⟩
    | succ i =>
      apply ih (fun f hf => hfs f (List.mem_cons_of_mem g hf)) calls (Nat.succ.inj hcalls)
      · exact hread.2.2.2
      · exact hi

/-! ## 5. Frames that are refused -/

/-- A call has given up, and the buffer is what it was. -/
def MsgRead.Refuses (r : MsgRead) (pay : List UInt8) : Prop := r.ret = -1 ∧ r.pay = pay

theorem wsReadMsgInto_unmasked (cap : Nat) (op : UInt8) (pay : List UInt8) {first b : UInt8}
    (hb : b &&& 0x80 = 0) {rs : List Recv} {s : List UInt8} (h : Arrives rs (first :: b :: s)) :
    (wsReadMsgInto cap op pay rs).Refuses pay := by
  obtain ⟨rs', hrun, -⟩ := recvExact_arrives (n := 2) (a := [first, b]) (b := s) h rfl
  rw [wsReadMsgInto, hrun]
  simp only [List.getD_cons_succ, List.getD_cons_zero]
  rw [if_pos hb]
  exact ⟨rfl, rfl⟩

theorem readPayloadInto_too_long {cap : Nat} (hcap : cap < 2 ^ 31) {len : UInt64}
    (hlen : cap < len.toNat) (op : UInt8) (pay : List UInt8) (rs : List Recv) :
    (readPayloadInto cap len op pay rs).Refuses pay := by
  rw [readPayloadInto]
  rcases recvExact 4 rs with ⟨_ | mask, rs'⟩
  · exact ⟨rfl, rfl⟩
  · simp only
    rw [if_pos ((gt_ofNat hcap len).mpr hlen)]
    exact ⟨rfl, rfl⟩

/-- Whatever follows the length. -/
theorem wsReadMsgInto_too_long {cap : Nat} (hcap : cap < 2 ^ 31) (op : UInt8) (pay : List UInt8)
    {form : LengthForm} {n : Nat} (hn : form.Holds n) (hlong : cap < n) {first : UInt8}
    {rs : List Recv} {s : List UInt8} (h : Arrives rs (first :: (form.field 0x80 n ++ s))) :
    (wsReadMsgInto cap op pay rs).Refuses pay := by
  obtain ⟨b, ext, hfield, hbit, hext, hlen⟩ := LengthForm.field_masked hn
  rw [hfield] at h
  obtain ⟨rs₁, hrun₁, h₁⟩ := recvExact_arrives (n := 2) (a := [first, b]) (b := ext ++ s) h rfl
  obtain ⟨rs₂, hrun₂, -⟩ := recvExact_arrives h₁ hext
  obtain ⟨len, hread, hnat⟩ := (readLength_spec b rs₁).2 ext rs₂ hrun₂
  rw [wsReadMsgInto, hrun₁]
  simp only [List.getD_cons_zero, List.getD_cons_succ]
  rw [if_neg hbit, hread]
  apply readPayloadInto_too_long hcap
  rw [hnat, hlen]
  exact hlong

/-! ## 6. What is written, read back -/

/-- The payload of `n` bytes and what follows it. -/
def takePayload (first : UInt8) (n : Nat) (bs : List UInt8) :
    Option (UInt8 × List UInt8 × List UInt8) :=
  if n ≤ bs.length then some (first, bs.take n, bs.drop n) else none

/-- A frame without a mask by the base framing protocol: its first byte, its payload, and what
follows it.  A mask, a length that a shorter form would hold, and one with the highest bit set are
refused. -/
def decodeFrame : List UInt8 → Option (UInt8 × List UInt8 × List UInt8)
  | first :: b :: bs =>
    if b < 126 then takePayload first b.toNat bs
    else if b = 126 then
      if bs.length < 2 ∨ number (bs.take 2) < 126 then none
      else takePayload first (number (bs.take 2)) (bs.drop 2)
    else if b = 127 then
      if bs.length < 8 ∨ number (bs.take 8) < 2 ^ 16 ∨ 2 ^ 63 ≤ number (bs.take 8) then none
      else takePayload first (number (bs.take 8)) (bs.drop 8)
    else none
  | _ => none

theorem takePayload_whole (first : UInt8) (p : List UInt8) :
    takePayload first p.length p = some (first, p, []) := by
  rw [takePayload, if_pos (Nat.le_refl _), List.take_length, List.drop_length]

/-- The header and the payload of `ws_send` are one frame. -/
theorem decodeFrame_sent (first : UInt8) {p : List UInt8} (hp : p.length < 2 ^ 63) :
    decodeFrame (sendHeader first p.length ++ p) = some (first, p, []) := by
  -- what the decoder takes apart again
  have htake (k : Nat) : (bigEndian k p.length ++ p).take k = bigEndian k p.length :=
    List.take_left' (bigEndian_length k _)
  have hdrop (k : Nat) : (bigEndian k p.length ++ p).drop k = p :=
    List.drop_left' (bigEndian_length k _)
  have hlen (k : Nat) : ¬ (bigEndian k p.length ++ p).length < k := by
    rw [List.length_append, bigEndian_length]
    omega
  rw [sendHeader_eq, lengthField]
  by_cases h7 : p.length < 126
  · have hlt : UInt8.ofNat p.length < 126 := by
      rw [UInt8.lt_iff_toNat_lt, ofNat_toNat h7]
      exact h7
    rw [if_pos h7, UInt8.zero_or, List.cons_append, List.cons_append, List.nil_append, decodeFrame,
      if_pos hlt, ofNat_toNat h7, takePayload_whole]
  rw [if_neg h7]
  by_cases h16 : p.length < 65536
  · have hnum : number (bigEndian 2 p.length) = p.length := number_bigEndian h16
    rw [if_pos h16, UInt8.zero_or, List.cons_append, List.cons_append, decodeFrame,
      if_neg (by decide), if_pos rfl, htake, hdrop, hnum, if_neg, takePayload_whole]
    exact not_or.mpr ⟨hlen 2, h7⟩
  · have hnum : number (bigEndian 8 p.length) = p.length :=
      number_bigEndian (Nat.lt_trans hp (by decide))
    rw [if_neg h16, UInt8.zero_or, List.cons_append, List.cons_append, decodeFrame,
      if_neg (by decide), if_neg (by decide), if_pos rfl, htake, hdrop, hnum, if_neg,
      takePayload_whole]
    exact not_or.mpr ⟨hlen 8, not_or.mpr ⟨h16, Nat.not_le.mpr hp⟩⟩

/-- What `ws_read_msg` reads and refuses, and what `ws_send` writes. -/
theorem codec_faithful {cap : Nat} (hcap : cap ≤ 2 ^ 31 - 1) :
    (∀ (fs : List MaskedFrame) (calls : List (UInt8 × List UInt8)) (rs : List Recv)
      (s : List UInt8),
      (∀ f ∈ fs, f.payload.length ≤ cap) → calls.length = fs.length →
      Arrives rs (fs.flatMap MaskedFrame.bytes ++ s) →
      ∀ (i : Nat) (f : MaskedFrame), fs[i]? = some f →
      ∃ r call, (wsReadMsgs cap calls rs)[i]? = some r ∧ calls[i]? = some call ∧
        r.Reads f call.2 ((fs.drop (i + 1)).flatMap MaskedFrame.bytes ++ s)) ∧
    (∀ (op : UInt8) (pay : List UInt8) (first b : UInt8) (rs : List Recv) (s : List UInt8),
      b &&& 0x80 = 0 → Arrives rs (first :: b :: s) → (wsReadMsgInto cap op pay rs).Refuses pay) ∧
    (∀ (op : UInt8) (pay : List UInt8) (first : UInt8) (form : LengthForm) (n : Nat)
      (rs : List Recv) (s : List UInt8), form.Holds n → cap < n →
      Arrives rs (first :: (form.field 0x80 n ++ s)) → (wsReadMsgInto cap op pay rs).Refuses pay) ∧
    ∀ (first : UInt8) (p : List UInt8) (ws : List Write), p.length < 2 ^ 63 →
      ((∀ w ∈ ws, ¬ w.Fails) → (wsSend first p ws).1 = true) ∧
      ((wsSend first p ws).1 = true →
        decodeFrame (wsSend first p ws).2.1 = some (first, p, [])) := by
  have hint : cap < 2 ^ 31 := by omega
  refine ⟨?reads, ?unmasked, ?long, ?sent⟩
  case reads =>
    intro fs calls rs s hfs hcalls h i f hi
    exact wsReadMsgs_reads hint fs hfs calls hcalls h i f hi
  case unmasked =>
    intro op pay first b rs s hb h
    exact wsReadMsgInto_unmasked cap op pay hb h
  case long =>
    intro op pay first form n rs s hn hlong h
    exact wsReadMsgInto_too_long hint op pay hn hlong h
  case sent =>
    intro first p ws hp
    refine ⟨wsSend_succeeds first p, fun hok => ?_⟩
    rw [wsSend_ok hok]
    exact decodeFrame_sent first hp

/-- A ping and a text in the longest form, in three chunks and with a byte of the next frame. -/
theorem codec_faithful_two :
    let ping : MaskedFrame := ⟨0x89, .seven, [1, 2, 3, 4], [], by decide, by decide⟩
    let text : MaskedFrame := ⟨0x81, .sixtyFour, [1, 2, 3, 4], [0x68, 0x69], by decide, by decide⟩
    ∃ r call, (wsReadMsgs 16384 [(0, [7, 7, 7]), (9, [7, 7, 7])]
        [.data [0x89, 0x80, 1], .intr, .data [2, 3, 4, 0x81, 0xFF, 0, 0, 0, 0, 0],
          .data [0, 0, 2, 1, 2, 3, 4, 0x69, 0x6B, 0x88]])[1]? = some r ∧
      [((0 : UInt8), [(7 : UInt8), 7, 7]), (9, [7, 7, 7])][1]? = some call ∧
      r.Reads text call.2 (([ping, text].drop 2).flatMap MaskedFrame.bytes ++ [0x88]) := by
  intro ping text
  have hdata : Arrives [.data [0x89, 0x80, 1], .intr, .data [2, 3, 4, 0x81, 0xFF, 0, 0, 0, 0, 0],
      .data [0, 0, 2, 1, 2, 3, 4, 0x69, 0x6B, 0x88]] _ :=
    (arrives_whole (s := [0x89, 0x80, 1]) (by decide)).append (.intr
      ((arrives_whole (s := [2, 3, 4, 0x81, 0xFF, 0, 0, 0, 0, 0]) (by decide)).append
        (arrives_whole (s := [0, 0, 2, 1, 2, 3, 4, 0x69, 0x6B, 0x88]) (by decide))))
  have hbytes : [0x89, 0x80, 1] ++ ([2, 3, 4, 0x81, 0xFF, 0, 0, 0, 0, 0] ++
      [0, 0, 2, 1, 2, 3, 4, 0x69, 0x6B, 0x88]) =
      [ping, text].flatMap MaskedFrame.bytes ++ [0x88] := by decide +kernel
  rw [hbytes] at hdata
  exact (codec_faithful (show 16384 ≤ 2 ^ 31 - 1 by decide)).1 [ping, text]
    [(0, [7, 7, 7]), (9, [7, 7, 7])] _ [0x88] (by decide) rfl hdata 1 text rfl

end Wssh
