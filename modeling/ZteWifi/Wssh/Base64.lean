import ZteWifi.Lib.Base64
import ZteWifi.Wssh.Handshake

/-!
# The Base64 encoder

`b64_enc` with its indices and the array it writes to.  It writes what `b64Body` says and a NUL
behind it, and the decoder of RFC 4648 gives its input back.
-/

open Ascii Net

namespace Wssh

/-! ## 1. The routine -/

/-- `INT_MAX` -/
abbrev intMax : Nat := 2147483647

/-- `size_t` has 32 bits. -/
def sizeT (n : Nat) : Nat := n % 2 ^ 32

/-- The indices of `b64_enc`, and the array `out`. -/
structure B64 where
  i : Nat
  o : Nat
  out : List UInt8
  deriving DecidableEq, Repr

/-- `out[o++] = c`, which is undefined behind the end of the array. -/
def B64.put (c : UInt8) (x : B64) : Option B64 :=
  if x.o < x.out.length then some { x with o := x.o + 1, out := x.out.set x.o c } else none

/-- `while (o & 3) out[o++] = '=';`, at most `n` times round. -/
def b64Pad : Nat → B64 → Option B64
  | 0, _ => none
  | n + 1, x =>
    if x.o &&& 3 ≠ 0 then do
      let x ← x.put 0x3D
      b64Pad n x
    else some x

section
variable (input : List UInt8)

/-- The loop over the groups of three bytes, at most `n` times round. -/
def b64Loop : Nat → B64 → Option B64
  | 0, _ => none
  | n + 1, x =>
    if x.i + 2 < input.length then do
      let a ← input[x.i]?
      let b ← input[x.i + 1]?
      let c ← input[x.i + 2]?
      let x ← x.put (b64Char (a >>> 2 &&& 63))
      let x ← x.put (b64Char ((a &&& 3) <<< 4 ||| b >>> 4))
      let x ← x.put (b64Char ((b &&& 15) <<< 2 ||| c >>> 6))
      let x ← x.put (b64Char (c &&& 63))
      b64Loop n { x with i := x.i + 3 }
    else some x

/-- What is left behind them. -/
def b64Tail (x : B64) : Option B64 :=
  if x.i < input.length then do
    let a ← input[x.i]?
    let x ← x.put (b64Char (a >>> 2 &&& 63))
    let x ← (if x.i + 1 < input.length then do
        let b ← input[x.i + 1]?
        let x ← x.put (b64Char ((a &&& 3) <<< 4 ||| b >>> 4))
        x.put (b64Char ((b &&& 15) <<< 2))
      else x.put (b64Char ((a &&& 3) <<< 4)))
    b64Pad 4 x
  else some x

/-- `b64_enc`: the result and what `out` holds then.  `none` is a read or a write outside the
arrays. -/
def b64EncInto (out : List UInt8) (outsz : Nat) : Option (Int × List UInt8) :=
  if outsz < sizeT (sizeT (input.length + 2) / 3 * 4 + 1) then some (-1, out)
  else do
    let x ← b64Loop input (input.length + 1) ⟨0, 0, out⟩
    let x ← b64Tail input x
    let y ← x.put 0
    some (Int.bmod x.o (2 ^ 32), y.out)

end

/-! ## 2. What is written -/

namespace B64

/-- The state in which `w` has been written. -/
def wrote (out : List UInt8) (i : Nat) (w : List UInt8) : B64 :=
  ⟨i, w.length, w ++ out.drop w.length⟩

theorem wrote_i (out : List UInt8) (i : Nat) (w : List UInt8) : (wrote out i w).i = i := rfl

theorem put_wrote {out w : List UInt8} (h : w.length < out.length) (i : Nat) (c : UInt8) :
    (wrote out i w).put c = some (wrote out i (w ++ [c])) := by
  have hlen : w.length < (w ++ out.drop w.length).length := by
    rw [List.length_append, List.length_drop]
    omega
  have hset : (w ++ out.drop w.length).set w.length c =
      w ++ [c] ++ out.drop (w ++ [c]).length := by
    rw [List.set_append_right _ _ (Nat.le_refl _), Nat.sub_self, List.drop_eq_getElem_cons h,
      List.set_cons_zero, List.length_append, List.length_singleton, List.append_assoc,
      List.singleton_append]
  rw [put, wrote, if_pos hlen]
  simp only [hset, wrote, List.length_append, List.length_singleton]

/-- A write in front of what follows it. -/
theorem put_bind {out w : List UInt8} (h : w.length < out.length) (i : Nat) (c : UInt8)
    {α : Type} (f : B64 → Option α) :
    ((wrote out i w).put c >>= f) = f (wrote out i (w ++ [c])) := by
  rw [put_wrote h]
  rfl

/-- Padding up to a whole number of quanta. -/
theorem pad_wrote {out w : List UInt8} {i n k : Nat} (hk : (w.length + k) % 4 = 0) (hk4 : k < 4)
    (hn : k < n) (h : w.length + k ≤ out.length) :
    b64Pad n (wrote out i w) = some (wrote out i (w ++ List.replicate k 0x3D)) := by
  have hmask (m : Nat) : m &&& 3 = m % 4 := Nat.and_two_pow_sub_one_eq_mod m 2
  induction k generalizing n w with
  | zero =>
    obtain ⟨n, rfl⟩ := Nat.exists_eq_succ_of_ne_zero (Nat.ne_of_gt hn)
    have hwhole : w.length % 4 = 0 := hk
    have hdone : ¬ (wrote out i w).o &&& 3 ≠ 0 := by
      show ¬ w.length &&& 3 ≠ 0
      rw [hmask]
      exact not_not.mpr hwhole
    rw [b64Pad, if_neg hdone, List.replicate_zero, List.append_nil]
  | succ k ih =>
    obtain ⟨n, rfl⟩ := Nat.exists_eq_succ_of_ne_zero (Nat.ne_of_gt (Nat.zero_lt_of_lt hn))
    have hopen : (wrote out i w).o &&& 3 ≠ 0 := by
      show w.length &&& 3 ≠ 0
      rw [hmask]
      omega
    have hlen : (w ++ [(0x3D : UInt8)]).length = w.length + 1 := by
      rw [List.length_append, List.length_singleton]
    rw [b64Pad, if_pos hopen, put_wrote (by omega)]
    show b64Pad n _ = _
    rw [ih (by rw [hlen]; omega) (by omega) (by omega) (by rw [hlen]; omega), List.append_assoc,
      List.replicate_succ, List.singleton_append]

end B64

open B64

/-- A time round the loop. -/
theorem b64Loop_group {input out w : List UInt8} {i n : Nat} {a b c : UInt8}
    (ha : input[i]? = some a) (hb : input[i + 1]? = some b) (hc : input[i + 2]? = some c)
    (hout : w.length + 4 ≤ out.length) :
    b64Loop input (n + 1) (wrote out i w) =
      b64Loop input n (wrote out (i + 3) (w ++ b64Body [a, b, c])) := by
  have hmore : (wrote out i w).i + 2 < input.length := (List.getElem?_eq_some_iff.mp hc).1
  rw [b64Loop, if_pos hmore]
  simp only [wrote_i, ha, hb, hc]
  show ((wrote out i w).put _ >>= _) = _
  rw [put_bind (by omega), put_bind (by simp; omega), put_bind (by simp; omega),
    put_bind (by simp; omega)]
  simp only [List.append_assoc, List.cons_append, b64Body]
  rfl

/-- Two bytes behind the groups. -/
theorem b64Tail_two {input out w : List UInt8} {i : Nat} {a b : UInt8} (ha : input[i]? = some a)
    (hb : input[i + 1]? = some b) (hw : w.length % 4 = 0) (hout : w.length + 4 ≤ out.length) :
    b64Tail input (wrote out i w) = some (wrote out i (w ++ b64Body [a, b])) := by
  have hmore : (wrote out i w).i < input.length := (List.getElem?_eq_some_iff.mp ha).1
  have hmore1 (w : List UInt8) : (wrote out i w).i + 1 < input.length :=
    (List.getElem?_eq_some_iff.mp hb).1
  rw [b64Tail, if_pos hmore]
  simp only [wrote_i, ha]
  show ((wrote out i w).put _ >>= _) = _
  rw [put_bind (by omega), if_pos (hmore1 _)]
  simp only [wrote_i, hb]
  show (((wrote out i _).put _ >>= _) >>= _) = _
  rw [put_bind (by simp; omega), put_bind (by simp; omega),
    pad_wrote (k := 1) (by simp; omega) (by omega) (by omega) (by simp; omega)]
  simp only [List.append_assoc, List.cons_append, List.nil_append, List.replicate, b64Body]

/-- One byte behind the groups. -/
theorem b64Tail_one {input out w : List UInt8} {i : Nat} {a : UInt8} (ha : input[i]? = some a)
    (hend : input.length = i + 1) (hw : w.length % 4 = 0) (hout : w.length + 4 ≤ out.length) :
    b64Tail input (wrote out i w) = some (wrote out i (w ++ b64Body [a])) := by
  have hmore : (wrote out i w).i < input.length := (List.getElem?_eq_some_iff.mp ha).1
  have hlast (w : List UInt8) : ¬ (wrote out i w).i + 1 < input.length := by
    rw [hend, wrote_i]
    omega
  rw [b64Tail, if_pos hmore]
  simp only [wrote_i, ha]
  show ((wrote out i w).put _ >>= _) = _
  rw [put_bind (by omega), if_neg (hlast _)]
  show ((wrote out i _).put _ >>= _) = _
  rw [put_bind (by simp; omega),
    pad_wrote (k := 2) (by simp; omega) (by omega) (by omega) (by simp; omega)]
  simp only [List.append_assoc, List.cons_append, List.nil_append, List.replicate, b64Body]

/-- What is read at and behind the position of `t`. -/
private theorem get_behind (s t : List UInt8) (j : Nat) : (s ++ t)[s.length + j]? = t[j]? := by
  rw [List.getElem?_append_right (Nat.le_add_right _ _), Nat.add_sub_cancel_left]

/-- The loop ends where fewer than three bytes are left. -/
theorem b64Loop_end {input : List UInt8} {x : B64} {n : Nat} (h : ¬ x.i + 2 < input.length)
    (hn : n ≠ 0) : b64Loop input n x = some x := by
  obtain ⟨n, rfl⟩ := Nat.exists_eq_succ_of_ne_zero hn
  rw [b64Loop, if_neg h]

/-- From the bytes `t` on, the loop and what follows it write the rest of the encoding. -/
theorem b64_wrote {out s t w : List UInt8} {n : Nat} (hw : w.length % 4 = 0)
    (hn : t.length < n) (hout : w.length + (b64Body t).length ≤ out.length) :
    ∃ i, (b64Loop (s ++ t) n (wrote out s.length w) >>= b64Tail (s ++ t)) =
      some (wrote out i (w ++ b64Body t)) := by
  induction t using b64Body.induct generalizing s w n with
  | case1 a b c t ih =>
    obtain ⟨n, rfl⟩ := Nat.exists_eq_succ_of_ne_zero (Nat.ne_of_gt (Nat.zero_lt_of_lt hn))
    have hgroup : (w ++ b64Body [a, b, c]).length = w.length + 4 := by
      rw [List.length_append, b64Body_length, List.length_cons, List.length_cons,
        List.length_singleton]
    rw [b64Body_length] at hout
    simp only [List.length_cons] at hn hout
    rw [b64Loop_group (get_behind s _ 0) (get_behind s _ 1) (get_behind s _ 2) (by omega),
      show s ++ a :: b :: c :: t = s ++ [a, b, c] ++ t by simp]
    obtain ⟨i, hi⟩ := ih (s := s ++ [a, b, c]) (w := w ++ b64Body [a, b, c]) (n := n)
      (by omega) (by omega) (by rw [b64Body_length]; omega)
    rw [List.length_append] at hi
    exact ⟨i, by rw [show s.length + 3 = s.length + [a, b, c].length from rfl, hi]; simp [b64Body]⟩
  | case2 a b =>
    refine ⟨s.length, ?_⟩
    rw [b64Loop_end (by simp [wrote_i]) (by omega)]
    exact b64Tail_two (get_behind s _ 0) (get_behind s _ 1) hw hout
  | case3 a =>
    refine ⟨s.length, ?_⟩
    rw [b64Loop_end (by simp [wrote_i]) (by omega)]
    exact b64Tail_one (get_behind s _ 0) (by simp) hw hout
  | case4 =>
    refine ⟨s.length, ?_⟩
    rw [b64Loop_end (by simp [wrote_i]) (by omega), b64Body, List.append_nil, List.append_nil]
    show b64Tail s (wrote out s.length w) = _
    rw [b64Tail, if_neg (by simp [wrote_i])]

/-- The array holds what `b64Enc` says, with a NUL behind it. -/
theorem b64EncInto_refines {input out : List UInt8} {outsz : Nat} (hout : outsz ≤ out.length)
    (hmax : (input.length + 2) / 3 * 4 ≤ intMax) :
    b64EncInto input out outsz =
      match b64Enc input outsz with
      | none => some (-1, out)
      | some text => some ((text.length : Int), text ++ 0 :: out.drop (text.length + 1)) := by
  unfold intMax at hmax
  have hsize : sizeT (sizeT (input.length + 2) / 3 * 4 + 1) = (input.length + 2) / 3 * 4 + 1 := by
    rw [sizeT, sizeT, Nat.mod_eq_of_lt (by omega), Nat.mod_eq_of_lt (by omega)]
  rw [b64EncInto, b64Enc, hsize]
  by_cases hshort : outsz < (input.length + 2) / 3 * 4 + 1
  · rw [if_pos hshort, if_pos hshort]
  · rw [if_neg hshort, if_neg hshort]
    have hlen : (b64Body input).length + 1 ≤ outsz := by
      rw [b64Body_length]
      omega
    obtain ⟨i, hi⟩ : ∃ i, (b64Loop input (input.length + 1) (wrote out 0 []) >>= b64Tail input) =
        some (wrote out i (b64Body input)) :=
      b64_wrote (s := []) (w := []) rfl (Nat.lt_succ_self _)
        (by simp only [List.length_nil]; omega)
    have hint : Int.bmod (b64Body input).length (2 ^ 32) = (b64Body input).length := by
      rw [b64Body_length]
      exact Int.bmod_eq_of_le (by omega) (by omega)
    have hlast : (wrote out i (b64Body input)).put 0 =
        some (wrote out i (b64Body input ++ [0])) := put_wrote (by omega) i 0
    have hall : (b64Loop input (input.length + 1) (wrote out 0 []) >>= fun x =>
        b64Tail input x >>= fun x => x.put 0 >>= fun y =>
          some (Int.bmod x.o (2 ^ 32), y.out)) =
        some (Int.bmod (b64Body input).length (2 ^ 32),
          (wrote out i (b64Body input ++ [0])).out) := by
      rw [← bind_assoc, hi]
      show (((wrote out i (b64Body input)).put 0) >>= _) = _
      rw [hlast]
      rfl
    refine hall.trans ?_
    rw [hint, wrote]
    simp only [List.length_append, List.length_singleton, List.append_assoc, List.singleton_append]

/-! ## 3. What the letters stand for -/

theorem value_b64Char {c : UInt8} (h : c.toNat < 64) :
    Rfc4648.value (b64Char c) = some c.toNat := by
  have hall : ∀ n < 64, Rfc4648.value (b64Char (UInt8.ofNat n)) = some n := by decide +kernel
  rw [← hall _ h, UInt8.ofNat_toNat]

/-- The low `k` bits of a byte, with the high `i` bits of the next behind them. -/
theorem join_bits {m n i k : Nat} (hm : m < 2 ^ k) (hn : n < 2 ^ i) (hik : i + k = 6) :
    m <<< i % 256 ||| n = m * 2 ^ i + n := by
  have hlt : m * 2 ^ i < 256 := calc
    m * 2 ^ i < 2 ^ k * 2 ^ i := Nat.mul_lt_mul_of_pos_right hm (Nat.two_pow_pos i)
    _ = 2 ^ 6 := by rw [← Nat.pow_add, Nat.add_comm, hik]
    _ < 256 := by decide
  rw [Nat.shiftLeft_eq, Nat.mod_eq_of_lt hlt, Nat.mul_comm, ← Nat.two_pow_add_eq_or_of_lt hn]

section
variable (a b : UInt8)

theorem toNat_letter₀ : (a >>> 2 &&& 63).toNat = a.toNat / 4 := by
  have ha := a.toNat_lt
  have hmask (n : Nat) : n &&& 63 = n % 64 := Nat.and_two_pow_sub_one_eq_mod n 6
  rw [UInt8.toNat_and, UInt8.toNat_shiftRight]
  show a.toNat >>> 2 &&& 63 = _
  rw [Nat.shiftRight_eq_div_pow, hmask]
  omega

theorem toNat_letter₁ : ((a &&& 3) <<< 4 ||| b >>> 4).toNat = a.toNat % 4 * 16 + b.toNat / 16 := by
  have hb := b.toNat_lt
  have hmask (n : Nat) : n &&& 3 = n % 4 := Nat.and_two_pow_sub_one_eq_mod n 2
  rw [UInt8.toNat_or, UInt8.toNat_shiftLeft, UInt8.toNat_and, UInt8.toNat_shiftRight]
  show (a.toNat &&& 3) <<< 4 % 256 ||| b.toNat >>> 4 = _
  rw [hmask, Nat.shiftRight_eq_div_pow]
  exact join_bits (k := 2) (by omega) (by omega) rfl

theorem toNat_letter₂ : ((a &&& 15) <<< 2 ||| b >>> 6).toNat = a.toNat % 16 * 4 + b.toNat / 64 := by
  have hb := b.toNat_lt
  have hmask (n : Nat) : n &&& 15 = n % 16 := Nat.and_two_pow_sub_one_eq_mod n 4
  rw [UInt8.toNat_or, UInt8.toNat_shiftLeft, UInt8.toNat_and, UInt8.toNat_shiftRight]
  show (a.toNat &&& 15) <<< 2 % 256 ||| b.toNat >>> 6 = _
  rw [hmask, Nat.shiftRight_eq_div_pow]
  exact join_bits (k := 4) (by omega) (by omega) rfl

theorem toNat_letter₃ : (a &&& 63).toNat = a.toNat % 64 := by
  rw [UInt8.toNat_and]
  exact Nat.and_two_pow_sub_one_eq_mod a.toNat 6

/-- The last letter of two bytes is that of three whose third is 0. -/
theorem letter₂_end : (a &&& 15) <<< 2 = ((a &&& 15) <<< 2 ||| (0 : UInt8) >>> 6) :=
  (UInt8.or_zero).symm

theorem letter₁_end : (a &&& 3) <<< 4 = ((a &&& 3) <<< 4 ||| (0 : UInt8) >>> 4) :=
  (UInt8.or_zero).symm

end

/-- The letters of three bytes, by their values. -/
theorem letter_values (a b c : UInt8) :
    Rfc4648.value (b64Char (a >>> 2 &&& 63)) = some (a.toNat / 4) ∧
    Rfc4648.value (b64Char ((a &&& 3) <<< 4 ||| b >>> 4)) =
      some (a.toNat % 4 * 16 + b.toNat / 16) ∧
    Rfc4648.value (b64Char ((b &&& 15) <<< 2 ||| c >>> 6)) =
      some (b.toNat % 16 * 4 + c.toNat / 64) ∧
    Rfc4648.value (b64Char (c &&& 63)) = some (c.toNat % 64) := by
  have ha := a.toNat_lt
  have hb := b.toNat_lt
  have hc := c.toNat_lt
  rw [value_b64Char (by rw [toNat_letter₀]; omega), value_b64Char (by rw [toNat_letter₁]; omega),
    value_b64Char (by rw [toNat_letter₂]; omega), value_b64Char (by rw [toNat_letter₃]; omega),
    toNat_letter₀, toNat_letter₁, toNat_letter₂, toNat_letter₃]
  exact ⟨rfl, rfl, rfl, rfl⟩

/-- The decoder gives the bytes back. -/
theorem decode_b64Body (s : List UInt8) : Rfc4648.decode (b64Body s) = some s := by
  induction s using b64Body.induct with
  | case1 a b c s ih =>
    obtain ⟨h0, h1, h2, h3⟩ := letter_values a b c
    have hb := b.toNat_lt
    have hc := c.toNat_lt
    have hbits : ((a.toNat / 4 * 64 + (a.toNat % 4 * 16 + b.toNat / 16)) * 64 +
        (b.toNat % 16 * 4 + c.toNat / 64)) * 64 + c.toNat % 64 =
          a.toNat * 65536 + b.toNat * 256 + c.toNat := by
      omega
    have ha' : (a.toNat * 65536 + b.toNat * 256 + c.toNat) / 65536 = a.toNat := by omega
    have hb' : (a.toNat * 65536 + b.toNat * 256 + c.toNat) / 256 % 256 = b.toNat := by omega
    have hc' : (a.toNat * 65536 + b.toNat * 256 + c.toNat) % 256 = c.toNat := by omega
    rw [b64Body, Rfc4648.decode_quantum h0 h1 h2 h3 ih, Rfc4648.quantum]
    simp only [hbits, ha', hb', hc', UInt8.ofNat_toNat, List.cons_append, List.nil_append]
  | case2 a b =>
    obtain ⟨h0, h1, h2, -⟩ := letter_values a b 0
    have hb := b.toNat_lt
    have hbits : ((a.toNat / 4 * 64 + (a.toNat % 4 * 16 + b.toNat / 16)) * 64 +
        (b.toNat % 16 * 4 + (0 : UInt8).toNat / 64)) / 4 = a.toNat * 256 + b.toNat := by
      rw [show (0 : UInt8).toNat = 0 from rfl]
      omega
    have ha' : (a.toNat * 256 + b.toNat) / 256 = a.toNat := by omega
    have hb' : (a.toNat * 256 + b.toNat) % 256 = b.toNat := by omega
    have hzero : (b.toNat % 16 * 4 + (0 : UInt8).toNat / 64) % 4 = 0 := by
      rw [show (0 : UInt8).toNat = 0 from rfl]
      omega
    rw [b64Body, letter₂_end, show (0x3D : UInt8) = Rfc4648.pad from rfl,
      Rfc4648.decode_lastTwo h0 h1 h2 hzero, hbits, ha', hb', UInt8.ofNat_toNat, UInt8.ofNat_toNat]
  | case3 a =>
    obtain ⟨h0, h1, -, -⟩ := letter_values a 0 0
    have hbits : (a.toNat / 4 * 64 + (a.toNat % 4 * 16 + (0 : UInt8).toNat / 16)) / 16 =
        a.toNat := by
      rw [show (0 : UInt8).toNat = 0 from rfl]
      omega
    have hzero : (a.toNat % 4 * 16 + (0 : UInt8).toNat / 16) % 16 = 0 := by
      rw [show (0 : UInt8).toNat = 0 from rfl]
      omega
    rw [b64Body, letter₁_end, show (0x3D : UInt8) = Rfc4648.pad from rfl,
      Rfc4648.decode_lastByte h0 h1 hzero, hbits, UInt8.ofNat_toNat]
  | case4 => rfl

/-- Every byte is a letter of the alphabet or padding. -/
theorem b64Body_letters (s : List UInt8) :
    ∀ c ∈ b64Body s, Rfc4648.value c ≠ none ∨ c = Rfc4648.pad := by
  have hletter {c : UInt8} {v : Nat} (h : Rfc4648.value c = some v) :
      Rfc4648.value c ≠ none ∨ c = Rfc4648.pad := Or.inl (by rw [h]; exact Option.some_ne_none v)
  induction s using b64Body.induct with
  | case1 a b c s ih =>
    obtain ⟨h0, h1, h2, h3⟩ := letter_values a b c
    simp only [b64Body, List.forall_mem_cons]
    exact ⟨hletter h0, hletter h1, hletter h2, hletter h3, ih⟩
  | case2 a b =>
    obtain ⟨h0, h1, h2, -⟩ := letter_values a b 0
    rw [b64Body, letter₂_end]
    simp only [List.forall_mem_cons]
    exact ⟨hletter h0, hletter h1, hletter h2, Or.inr rfl, List.forall_mem_nil _⟩
  | case3 a =>
    obtain ⟨h0, h1, -, -⟩ := letter_values a 0 0
    rw [b64Body, letter₁_end]
    simp only [List.forall_mem_cons]
    exact ⟨hletter h0, hletter h1, Or.inr rfl, Or.inr rfl, List.forall_mem_nil _⟩
  | case4 => exact List.forall_mem_nil _

/-- The text in the array ends at the NUL behind the encoding. -/
theorem cstr_b64Body (s rest : List UInt8) : cstr (b64Body s ++ 0 :: rest) = b64Body s := by
  have hne : ∀ c ∈ b64Body s, decide (c ≠ 0) = true := by
    intro c hc
    have hzero : ¬ (Rfc4648.value 0 ≠ none ∨ (0 : UInt8) = Rfc4648.pad) := by decide
    exact decide_eq_true fun h => hzero (h ▸ b64Body_letters s c hc)
  rw [cstr, List.takeWhile_append_of_pos hne, List.takeWhile_cons_of_neg (by decide),
    List.append_nil]

/-! ## 4. The encoder -/

/-- `b64_enc` for an array with room for `outsz` bytes: it refuses what does not fit and writes
nothing then; what it writes otherwise is decoded to its input, and no other input gives it. -/
theorem b64EncInto_decodes (s out : List UInt8) (outsz : Nat) (hout : outsz ≤ out.length)
    (hmax : 4 * ((s.length + 2) / 3) ≤ intMax) :
    (outsz < 4 * ((s.length + 2) / 3) + 1 → b64EncInto s out outsz = some (-1, out)) ∧
    (4 * ((s.length + 2) / 3) + 1 ≤ outsz →
      ∃ text : List UInt8, text.length = 4 * ((s.length + 2) / 3) ∧
        b64EncInto s out outsz =
          some ((text.length : Int), text ++ 0 :: out.drop (text.length + 1)) ∧
        (∀ c ∈ text, Rfc4648.value c ≠ none ∨ c = Rfc4648.pad) ∧
        Rfc4648.decode text = some s ∧
        ∀ (t out' : List UInt8) (outsz' : Nat) (r : Int) (mem : List UInt8),
          outsz' ≤ out'.length → 4 * ((t.length + 2) / 3) ≤ intMax → t ≠ s →
          b64EncInto t out' outsz' = some (r, mem) → r ≠ -1 → cstr mem ≠ text) := by
  have hcomm (n : Nat) : 4 * (n / 3) = n / 3 * 4 := Nat.mul_comm 4 (n / 3)
  simp only [hcomm] at hmax ⊢
  refine ⟨fun hshort => ?_, fun hfit => ?_⟩
  · rw [b64EncInto_refines hout hmax, b64Enc, if_pos hshort]
  · refine ⟨b64Body s, b64Body_length s, ?_, b64Body_letters s, decode_b64Body s, ?_⟩
    · rw [b64EncInto_refines hout hmax, b64Enc, if_neg (Nat.not_lt.mpr hfit)]
    · intro t out' outsz' r mem hout' hmax' hne henc hr hsame
      rw [b64EncInto_refines hout' hmax', b64Enc] at henc
      split_ifs at henc
      · obtain ⟨rfl, -⟩ := Prod.mk.inj (Option.some.inj henc)
        exact hr rfl
      · obtain ⟨-, rfl⟩ := Prod.mk.inj (Option.some.inj henc)
        rw [cstr_b64Body] at hsame
        have hst : some t = some s := by rw [← decode_b64Body t, hsame, decode_b64Body s]
        exact hne (Option.some.inj hst)

theorem b64EncInto_decodes_abcd :
    b64EncInto (bytes "abcd") (List.replicate 10 7) 8 = some (-1, List.replicate 10 7) ∧
    b64EncInto (bytes "abcd") (List.replicate 10 7) 9 = some (8, bytes "YWJjZA==" ++ [0, 7]) ∧
    Rfc4648.decode (bytes "YWJjZA==") = some (bytes "abcd") := by
  have hshort := (b64EncInto_decodes (bytes "abcd") (List.replicate 10 7) 8 (by decide)
    (by decide)).1 (by decide)
  obtain ⟨text, hlen, henc, -, hdec, -⟩ :=
    (b64EncInto_decodes (bytes "abcd") (List.replicate 10 7) 9 (by decide) (by decide)).2
      (by decide)
  have hrun : b64EncInto (bytes "abcd") (List.replicate 10 7) 9 =
      some (8, bytes "YWJjZA==" ++ [0, 7]) := by decide +kernel
  have htext : text = bytes "YWJjZA==" :=
    (List.append_inj (Prod.mk.inj (Option.some.inj (henc.symm.trans hrun))).2 hlen).1
  exact ⟨hshort, hrun, htext ▸ hdec⟩

end Wssh
