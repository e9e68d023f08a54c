import ZteWifi.Text.Ascii

/-!
# UTF-8 input

Both converters tell the length of a character from its first byte alone; in valid UTF-8 the bytes
that belong to it follow.
-/

open Ascii

namespace Text

/-! ## 1. Bytes that are announced -/

/-- The bytes are the encoding of some text. -/
def ValidUtf8 (s : List UInt8) : Prop := ∃ cs : List Char, s = cs.flatMap String.utf8EncodeChar

def isContinuation (c : UInt8) : Bool := 0x80 ≤ c && c ≤ 0xBF

/-- Behind each byte the continuation bytes follow that it announces. -/
def Led : List UInt8 → Prop
  | [] => True
  | c :: s =>
    (utf8CharLen c - 1 ≤ s.length ∧ ∀ d ∈ s.take (utf8CharLen c - 1), isContinuation d) ∧ Led s

theorem Led.suffix {s r : List UInt8} (h : Led s) (hr : r <:+ s) : Led r := by
  induction s with
  | nil =>
    rw [List.suffix_nil.mp hr]
    exact h
  | cons c s ih =>
    rcases List.suffix_cons_iff.mp hr with rfl | hr
    · exact h
    · exact ih h.2 hr

theorem Led.cons_of_le {c : UInt8} {t s : List UInt8} (hlen : utf8CharLen c ≤ t.length + 1)
    (ht : ∀ d ∈ t, isContinuation d) (hs : Led (t ++ s)) : Led (c :: (t ++ s)) := by
  refine ⟨⟨?_, fun d hd => ?_⟩, hs⟩
  · rw [List.length_append]
    omega
  · rw [List.take_append_of_le_length (by omega)] at hd
    exact ht d (List.mem_of_mem_take hd)

/-- A continuation byte announces nothing. -/
theorem utf8CharLen_continuation : ∀ c : UInt8, isContinuation c → utf8CharLen c = 1 := by
  decide +kernel

theorem Led.continuations {t s : List UInt8} (ht : ∀ d ∈ t, isContinuation d) (hs : Led s) :
    Led (t ++ s) := by
  induction t with
  | nil => exact hs
  | cons c t ih =>
    have hc := utf8CharLen_continuation c (ht c List.mem_cons_self)
    refine ⟨⟨by rw [hc]; exact Nat.zero_le _, fun d hd => ?_⟩,
      ih fun d hd => ht d (List.mem_cons_of_mem _ hd)⟩
    rw [hc] at hd
    exact absurd hd List.not_mem_nil

theorem isContinuation_low (v : Nat) : isContinuation (UInt8.ofNat (v % 0x40 + 0x80)) := by
  rw [isContinuation, Bool.and_eq_true, decide_eq_true_eq, decide_eq_true_eq, UInt8.le_iff_toNat_le,
    UInt8.le_iff_toNat_le, UInt8.toNat_ofNat']
  simp only [UInt8.reduceToNat]
  omega

theorem utf8CharLen_of_range : ∀ c : UInt8, (c < 0x80 → utf8CharLen c = 1) ∧
    (0xC2 ≤ c ∧ c ≤ 0xDF → utf8CharLen c = 2) ∧ (0xE0 ≤ c ∧ c ≤ 0xEF → utf8CharLen c = 3) ∧
    (0xF0 ≤ c ∧ c ≤ 0xF4 → utf8CharLen c = 4) := by
  decide +kernel

theorem ofNat_bounds {n : Nat} {a b : UInt8} (ha : a.toNat ≤ n) (hb : n ≤ b.toNat) :
    a ≤ UInt8.ofNat n ∧ UInt8.ofNat n ≤ b := by
  have hn : (UInt8.ofNat n).toNat = n := by
    have hlt := b.toNat_lt
    rw [UInt8.toNat_ofNat', Nat.mod_eq_of_lt (by omega)]
  rw [UInt8.le_iff_toNat_le, UInt8.le_iff_toNat_le, hn]
  exact ⟨ha, hb⟩

theorem ne_ascii_of_le {a c : UInt8} (ha : 0x80 ≤ a) (h : a ≤ c) : ¬ c < 0x80 := by
  rw [UInt8.not_lt]
  exact UInt8.le_trans ha h

/-- The first byte of a character tells how many continuation bytes follow. -/
theorem encode_cons (ch : Char) : ∃ c t, String.utf8EncodeChar ch = c :: t ∧
    utf8CharLen c = t.length + 1 ∧ (∀ d ∈ t, isContinuation d) ∧ (t = [] ↔ c < 0x80) := by
  have hmax : ch.val.toNat < 0x110000 := by
    rcases ch.valid with h | h
    · exact Nat.lt_trans h (by decide)
    · exact h.2
  rw [String.utf8EncodeChar]
  generalize ch.val.toNat = v at hmax
  split
  · next h1 =>
    have hlow := ofNat_bounds (a := 0) (b := 0x7F) (Nat.zero_le v) h1
    have hascii : UInt8.ofNat v < 0x80 :=
      Nat.lt_of_le_of_lt (UInt8.le_iff_toNat_le.mp hlow.2) (by decide)
    exact ⟨_, [], rfl, (utf8CharLen_of_range _).1 hascii, List.forall_mem_nil _,
      iff_of_true rfl hascii⟩
  split
  · next h1 h2 =>
    have hlead := ofNat_bounds (n := v / 64 % 0x20 + 0xC0) (a := 0xC2) (b := 0xDF)
      (show 0xC2 ≤ _ by omega) (show _ ≤ 0xDF by omega)
    refine ⟨_, _, rfl, (utf8CharLen_of_range _).2.1 hlead, ?_,
      iff_of_false (List.cons_ne_nil _ _) (ne_ascii_of_le (by decide) hlead.1)⟩
    simp only [List.forall_mem_cons]
    exact ⟨isContinuation_low _, List.forall_mem_nil _⟩
  split
  · next h1 h2 h3 =>
    have hlead := ofNat_bounds (n := v / 4096 % 0x10 + 0xE0) (a := 0xE0) (b := 0xEF)
      (show 0xE0 ≤ _ by omega) (show _ ≤ 0xEF by omega)
    refine ⟨_, _, rfl, (utf8CharLen_of_range _).2.2.1 hlead, ?_,
      iff_of_false (List.cons_ne_nil _ _) (ne_ascii_of_le (by decide) hlead.1)⟩
    simp only [List.forall_mem_cons]
    exact ⟨isContinuation_low _, isContinuation_low _, List.forall_mem_nil _⟩
  · next h1 h2 h3 =>
    have hlead := ofNat_bounds (n := v / 262144 % 0x08 + 0xF0) (a := 0xF0) (b := 0xF4)
      (show 0xF0 ≤ _ by omega) (show _ ≤ 0xF4 by omega)
    refine ⟨_, _, rfl, (utf8CharLen_of_range _).2.2.2 hlead, ?_,
      iff_of_false (List.cons_ne_nil _ _) (ne_ascii_of_le (by decide) hlead.1)⟩
    simp only [List.forall_mem_cons]
    exact ⟨isContinuation_low _, isContinuation_low _, isContinuation_low _, List.forall_mem_nil _⟩

theorem led_encodeChar (ch : Char) {s : List UInt8} (hs : Led s) :
    Led (String.utf8EncodeChar ch ++ s) := by
  obtain ⟨c, t, hencode, hlen, ht, -⟩ := encode_cons ch
  rw [hencode]
  exact Led.cons_of_le (Nat.le_of_eq hlen) ht (Led.continuations ht hs)

theorem ValidUtf8.led {s : List UInt8} (h : ValidUtf8 s) : Led s := by
  obtain ⟨cs, rfl⟩ := h
  induction cs with
  | nil => trivial
  | cons c cs ih =>
    rw [List.flatMap_cons]
    exact led_encodeChar c ih

/-! ## 2. Where valid text can be cut -/

theorem ValidUtf8.nil : ValidUtf8 [] := ⟨[], rfl⟩

theorem ValidUtf8.append {s t : List UInt8} (hs : ValidUtf8 s) (ht : ValidUtf8 t) :
    ValidUtf8 (s ++ t) := by
  obtain ⟨cs, rfl⟩ := hs
  obtain ⟨ds, rfl⟩ := ht
  exact ⟨cs ++ ds, List.flatMap_append.symm⟩

theorem validUtf8_encode (ch : Char) : ValidUtf8 (String.utf8EncodeChar ch) :=
  ⟨[ch], (List.flatMap_singleton _ ch).symm⟩

/-- Valid text starts with a character. -/
theorem ValidUtf8.uncons {c : UInt8} {s : List UInt8} (h : ValidUtf8 (c :: s)) :
    ∃ ch t r, String.utf8EncodeChar ch = c :: t ∧ s = t ++ r ∧ ValidUtf8 r := by
  obtain ⟨cs, hcs⟩ := h
  cases cs with
  | nil => cases hcs
  | cons ch cs =>
    obtain ⟨d, t, hencode, -⟩ := encode_cons ch
    rw [List.flatMap_cons, hencode, List.cons_append] at hcs
    obtain ⟨rfl, rfl⟩ := List.cons.inj hcs
    exact ⟨ch, t, _, hencode, rfl, cs, rfl⟩

theorem encode_ascii : ∀ c : UInt8, c < 0x80 →
    String.utf8EncodeChar (Char.ofNat c.toNat) = [c] := by
  decide +kernel

theorem validUtf8_ascii {s : List UInt8} (h : ∀ c ∈ s, c < 0x80) : ValidUtf8 s := by
  induction s with
  | nil => exact .nil
  | cons c s ih =>
    obtain ⟨hc, hs⟩ := List.forall_mem_cons.mp h
    have hchar := validUtf8_encode (Char.ofNat c.toNat)
    rw [encode_ascii c hc] at hchar
    exact hchar.append (ih hs)

theorem ValidUtf8.tail {c : UInt8} {s : List UInt8} (h : ValidUtf8 (c :: s)) (hc : c < 0x80) :
    ValidUtf8 s := by
  obtain ⟨ch, t, r, hencode, rfl, hr⟩ := h.uncons
  obtain ⟨d, u, hencode', -, -, hnil⟩ := encode_cons ch
  obtain ⟨rfl, rfl⟩ := List.cons.inj (hencode'.symm.trans hencode)
  rwa [hnil.mpr hc]

theorem not_isContinuation_ascii : ∀ c : UInt8, c < 0x80 → ¬ isContinuation c = true := by
  decide +kernel

/-- An ASCII byte is a place at which valid text can be cut. -/
theorem ValidUtf8.cut {p : List UInt8} {c : UInt8} {q : List UInt8} (h : ValidUtf8 (p ++ c :: q))
    (hc : c < 0x80) : ValidUtf8 p ∧ ValidUtf8 q := by
  -- by induction on the length of what stands before it, one character at a time
  suffices hlength : ∀ n (p : List UInt8), p.length ≤ n → ValidUtf8 (p ++ c :: q) →
      ValidUtf8 p ∧ ValidUtf8 q from hlength _ p (Nat.le_refl _) h
  intro n
  induction n with
  | zero =>
    intro p hp h
    obtain rfl := List.eq_nil_of_length_eq_zero (Nat.le_zero.mp hp)
    exact ⟨.nil, h.tail hc⟩
  | succ n ih =>
    intro p hp h
    cases p with
    | nil => exact ⟨.nil, h.tail hc⟩
    | cons d p =>
      obtain ⟨ch, t, r, hencode, hsplit, hr⟩ := ValidUtf8.uncons h
      obtain ⟨d', t', hencode', -, hcont, -⟩ := encode_cons ch
      obtain ⟨rfl, rfl⟩ := List.cons.inj (hencode'.symm.trans hencode)
      -- the byte at which it is cut is no continuation byte of the first character
      obtain ⟨u, rfl, rfl⟩ : ∃ u, p = t' ++ u ∧ r = u ++ c :: q := by
        rcases List.append_eq_append_iff.mp hsplit with ⟨u, ht, hcq⟩ | ⟨u, hp, hr⟩
        · cases u with
          | nil =>
            rw [List.append_nil] at ht
            exact ⟨[], by rw [ht, List.append_nil], by rw [hcq]; rfl⟩
          | cons x u =>
            obtain ⟨rfl, -⟩ := List.cons.inj hcq
            have hx := hcont c (by rw [ht]; exact List.mem_append_right _ List.mem_cons_self)
            exact absurd hx (not_isContinuation_ascii c hc)
        · exact ⟨u, hp, hr⟩
      have hlen : u.length ≤ n := by
        rw [List.length_cons, List.length_append] at hp
        omega
      obtain ⟨hu, hq⟩ := ih u hlen hr
      refine ⟨?_, hq⟩
      have hchar := validUtf8_encode ch
      rw [hencode'] at hchar
      exact hchar.append hu

/-- Behind an ASCII byte of valid text stands valid text. -/
theorem ValidUtf8.behind {c : UInt8} {s r : List UInt8} (h : ValidUtf8 s) (hr : c :: r <:+ s)
    (hc : c < 0x80) : ValidUtf8 r := by
  obtain ⟨p, rfl⟩ := hr
  exact (h.cut hc).2

theorem ValidUtf8.drop_ascii {u r : List UInt8} (h : ValidUtf8 (u ++ r)) (hu : ∀ c ∈ u, c < 0x80) :
    ValidUtf8 r := by
  induction u with
  | nil => exact h
  | cons c u ih =>
    obtain ⟨hc, hu⟩ := List.forall_mem_cons.mp hu
    exact ih (h.tail hc) hu

end Text
