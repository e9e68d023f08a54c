import ZteWifi.H2t.Agreement
import ZteWifi.Text.Fitting

/-!
# References against a reference decoder

A reference is complete when it has a name or a number of the right length, a value that is a code
point, and its semicolon.  `decode_entity` of `h2t.c` decodes those, and takes every other `&` for
text; the whole-buffer version adds up a number of any length, and the sum wraps around.
-/

open Ascii LineBuf

namespace H2t

/-! ## 1. What a reference stands for -/

/-- What the character with the number `v` does to the line. -/
def character (v : Nat) : LineBuf → LineBuf :=
  if v = 0 ∨ (0xD800 ≤ v ∧ v ≤ 0xDFFF) then id
  else if v = 0x20 ∨ v = 0x09 ∨ v = 0x0A ∨ v = 0x0D then appendSpace
  else
    let encoded := String.utf8EncodeChar (Char.ofNat v)
    fun b => appendAllNc encoded (reserve encoded.length b)

/-- What an entity does to it; letter case makes no difference. -/
def entity (name : List UInt8) : LineBuf → LineBuf :=
  match knownEntities.lookup (name.map tolower) with
  | some c => exec c
  | none => id

/-- The bytes behind an `&` start with a complete reference: what it does, and what follows. -/
inductive Complete : List UInt8 → (LineBuf → LineBuf) → List UInt8 → Prop
  | decimal {ds t : List UInt8} (hds : Digits 10 ds) (hne : ds ≠ []) (hlen : ds.length ≤ 37)
      (hval : valueFrom 10 0 ds ≤ 0x10FFFF) :
      Complete (hash :: (ds ++ semicolon :: t)) (character (valueFrom 10 0 ds)) t
  | hex {x : UInt8} {ds t : List UInt8} (hx : x = 0x78 ∨ x = 0x58) (hds : Digits 16 ds)
      (hne : ds ≠ []) (hlen : ds.length ≤ 36) (hval : valueFrom 16 0 ds ≤ 0x10FFFF) :
      Complete (hash :: x :: (ds ++ semicolon :: t)) (character (valueFrom 16 0 ds)) t
  | named {n t : List UInt8} (hn : ∀ c ∈ n, isalnum c) (hne : n ≠ []) (hlen : n.length ≤ 38) :
      Complete (n ++ semicolon :: t) (entity n) t

theorem execAll_emitCodePoint {v : Nat} (hv : v ≤ 0x10FFFF) (b : LineBuf) :
    execAll (emitCodePoint v) b = character v b := by
  have hdropped : (v = 0 ∨ v > 0x10FFFF ∨ v ≥ 0xD800 ∧ v ≤ 0xDFFF) ↔
      (v = 0 ∨ (0xD800 ≤ v ∧ v ≤ 0xDFFF)) := by omega
  unfold emitCodePoint character
  simp only [hdropped]
  split
  · rfl
  next hkept =>
  split
  · rfl
  · have hvalid : v.isValidChar := by
      unfold Nat.isValidChar
      omega
    have hnat : (Char.ofNat v).toNat = v := by
      rw [Char.ofNat, dif_pos hvalid]
      rfl
    -- `append_utf8` encodes as the standard library does, but only characters
    show appendUtf8 v b = _
    rw [appendUtf8]
    conv_lhs => rw [← hnat, utf8Bytes_eq]

theorem execAll_emitKnownEntity (n : List UInt8) (b : LineBuf) :
    execAll (emitKnownEntity (n.map tolower)) b = entity n b := by
  unfold emitKnownEntity entity
  cases knownEntities.lookup (n.map tolower) <;> rfl

namespace Stream

theorem decodeEntity_decimal {ds : List UInt8} (hds : Digits 10 ds) (hne : ds ≠ [])
    (hlen : ds.length ≤ 37) (hval : valueFrom 10 0 ds ≤ 0x10FFFF) (t : List UInt8) :
    decodeEntity (hash :: (ds ++ semicolon :: t)) = (emitCodePoint (valueFrom 10 0 ds), t) := by
  obtain ⟨d, ds, rfl⟩ := List.exists_cons_of_ne_nil hne
  have hd : ¬ (d = 0x78 ∨ d = 0x58) := by
    have hdigit := hds d List.mem_cons_self
    rintro (rfl | rfl) <;> cases hdigit
  rw [decodeEntity, if_pos rfl, List.cons_append, numericEntity, if_neg hd, ← List.cons_append]
  exact numericDigits_all .decimal hds hne (by simp only [List.length_singleton]; omega) hval t

theorem decodeEntity_hex {x : UInt8} {ds : List UInt8} (hx : x = 0x78 ∨ x = 0x58)
    (hds : Digits 16 ds) (hne : ds ≠ []) (hlen : ds.length ≤ 36)
    (hval : valueFrom 16 0 ds ≤ 0x10FFFF) (t : List UInt8) :
    decodeEntity (hash :: x :: (ds ++ semicolon :: t)) =
      (emitCodePoint (valueFrom 16 0 ds), t) := by
  rw [decodeEntity, if_pos rfl, numericEntity, if_pos hx]
  exact numericDigits_all (.hex hx) hds hne
    (by simp only [List.length_cons, List.length_nil]; omega) hval t

theorem decodeEntity_named {n : List UInt8} (hn : ∀ c ∈ n, isalnum c) (hne : n ≠ [])
    (hlen : n.length ≤ 38) (t : List UInt8) :
    decodeEntity (n ++ semicolon :: t) = (emitKnownEntity (n.map tolower), t) := by
  obtain ⟨c, n, rfl⟩ := List.exists_cons_of_ne_nil hne
  have hc : c ≠ hash := by
    rintro rfl
    exact absurd (hn hash List.mem_cons_self) (by decide)
  rw [List.cons_append, decodeEntity, if_neg hc]
  exact namedEntity_all hn hlen t

/-- A complete reference is decoded. -/
theorem decodeEntity_complete {r t : List UInt8} {f : LineBuf → LineBuf} (h : Complete r f t) :
    (decodeEntity r).2 = t ∧ ∀ b, execAll (decodeEntity r).1 b = f b := by
  cases h with
  | @decimal ds t hds hne hlen hval =>
    rw [decodeEntity_decimal hds hne hlen hval]
    exact ⟨rfl, execAll_emitCodePoint hval⟩
  | @hex x ds t hx hds hne hlen hval =>
    rw [decodeEntity_hex hx hds hne hlen hval]
    exact ⟨rfl, execAll_emitCodePoint hval⟩
  | @named n t hn hne hlen =>
    rw [decodeEntity_named hn hne hlen]
    exact ⟨rfl, execAll_emitKnownEntity n⟩

/-! ## 2. What is no reference -/

/-- A number that is not complete goes out as text. -/
theorem numericDigits_incomplete {base : Nat} {pre s : List UInt8} (hpre : NumPrefix base pre)
    (h : ∀ f t, ¬ Complete (pre ++ s) f t) : Resent (pre ++ s) (numericDigits base pre s) := by
  obtain ⟨u, hu, ⟨t, hne, hlen, hval, rfl, -⟩ | ⟨t, rfl, heq⟩⟩ := numericDigits_cases hpre s
  -- the digits are read up to a semicolon, or the loop ends before and sends back what it has read
  · refine absurd ?_ (h (character (valueFrom base 0 u)) t)
    cases hpre with
    | decimal =>
      rw [List.length_singleton] at hlen
      exact .decimal hu hne (by omega) hval
    | hex hx =>
      rw [List.length_cons, List.length_singleton] at hlen
      exact .hex hx hu hne (by omega) hval
  · rw [heq]
    refine ⟨pre ++ u, (List.append_assoc _ _ _).symm, rfl, ?_⟩
    rw [List.forall_mem_append]
    exact ⟨NumPrefix.isTextByte hpre, fun c hc => digitOf_isTextByte (hu c hc)⟩

theorem decodeEntity_incomplete {r : List UInt8} (h : ∀ f t, ¬ Complete r f t) :
    Resent r (decodeEntity r) := by
  cases r with
  | nil => exact ⟨[], rfl, rfl, List.forall_mem_nil _⟩
  | cons c s =>
    rw [decodeEntity]
    split
    · next hhash =>
      subst hhash
      cases s with
      | nil => exact numericDigits_incomplete .decimal h
      | cons d s =>
        rw [numericEntity]
        split
        · next hx => exact numericDigits_incomplete (.hex hx) h
        · exact numericDigits_incomplete .decimal h
    -- no `#`: a name is read in the same way
    · obtain ⟨n, hn, ⟨t, hne, hlen, hs, -⟩ | ⟨t, hs, heq⟩⟩ := namedEntity_cases c s
      · rw [hs] at h
        exact absurd (.named hn hne hlen) (h (entity n) t)
      · rw [heq]
        exact ⟨n, hs, rfl, fun d hd => isTextByte_of_isalnum (hn d hd)⟩

theorem commands_text {u : List UInt8} (hu : ∀ c ∈ u, isTextByte c) (s : List UInt8) :
    commands (u ++ s) = u.map .byte ++ commands s := by
  -- none of the branches of the loop but the last is taken at a byte that may stand in a reference
  have hall : ∀ c : UInt8, isTextByte c → c ≠ lt ∧ c ≠ amp ∧ isspace c = false ∧ ¬ c < 0x20 ∧
      c < 0x80 := by decide +kernel
  induction u with
  | nil => rfl
  | cons c u ih =>
    obtain ⟨hc, hu⟩ := List.forall_mem_cons.mp hu
    obtain ⟨hlt, hamp, hspace, hctl, hascii⟩ := hall c hc
    have hstep : mainStep c (u ++ s) = ([.byte c], some (u ++ s)) := by
      rw [mainStep, if_neg hlt, if_neg hamp, hspace, if_neg Bool.false_ne_true, if_neg hctl,
        appendTextByte, if_pos hascii]
    rw [List.cons_append, commands_cons, hstep, Option.getD_some, ih hu]
    rfl

/-- `&amp;` is an `&` of the text. -/
theorem commands_amp (r : List UInt8) :
    commands (bytes "&amp;" ++ r) = .str [amp] :: commands r := by
  have hamp : bytes "&amp;" ++ r = amp :: (bytes "amp" ++ semicolon :: r) := rfl
  have hrun := decodeEntity_named (n := bytes "amp") (by decide +kernel) (by decide) (by decide) r
  have hknown : emitKnownEntity ((bytes "amp").map tolower) = [.str [amp]] := by decide +kernel
  rw [hamp, commands_cons, mainStep, if_neg (by decide), if_pos rfl, hrun, hknown]
  rfl

/-- A reference that is not complete is the text that it looks like. -/
theorem commands_incomplete {r : List UInt8} (h : ∀ f t, ¬ Complete r f t) :
    commands (amp :: r) = .byte amp :: commands r := by
  obtain ⟨u, hr, hcmds, hu⟩ := decodeEntity_incomplete h
  rw [commands_cons, mainStep, if_neg (by decide), if_pos rfl]
  conv_rhs => rw [hr, commands_text hu]
  simp only [hcmds, Option.getD_some]
  rfl

/-! ## 3. The loop over the digits -/

/-- The states of the loop that starts with `r₀` and `s₀`. -/
inductive NumState (base : Nat) (r₀ : NumRef) (s₀ : List UInt8) : NumRef → List UInt8 → Prop
  | start : NumState base r₀ s₀ r₀ s₀
  | turn {r : NumRef} {c : UInt8} {s : List UInt8} {d : Nat} (h : NumState base r₀ s₀ r (c :: s))
      (hroom : r.tmp.length + 1 < 40) (hd : digitOf base c = some d)
      (hfits : ¬ r.cp > (0x10FFFF - d) / base) :
      NumState base r₀ s₀ ⟨r.tmp ++ [c], r.cp * base + d, true, some c⟩ s

/-- From each of them the loop goes on to its end. -/
theorem NumState.numLoop_eq {base : Nat} {r₀ r : NumRef} {s₀ s : List UInt8}
    (h : NumState base r₀ s₀ r s) : numLoop base r₀ s₀ = numLoop base r s := by
  induction h with
  | start => rfl
  | turn _ hroom hd hfits ih =>
    rw [ih, numLoop, if_pos hroom, hd]
    exact if_neg hfits

theorem NumState.cp_le {base : Nat} {r₀ r : NumRef} {s₀ s : List UInt8}
    (h : NumState base r₀ s₀ r s) (h₀ : r₀.cp ≤ 0x10FFFF) : r.cp ≤ 0x10FFFF := by
  induction h with
  | start => exact h₀
  | @turn r c s d _ _ hd hfits _ =>
    -- the test before the product keeps the sum below the last code point
    have hmul := Nat.mul_le_of_le_div base r.cp (0x10FFFF - d) (Nat.not_lt.mp hfits)
    have hd16 := digitOf_lt hd
    show r.cp * base + d ≤ 0x10FFFF
    omega

end Stream

/-- What `decode_entity` does with any bytes behind an `&`. -/
theorem decodeEntity_spec (r : List UInt8) :
    (∀ f t, Complete r f t → (Stream.decodeEntity r).2 = t ∧
      ∀ b, execAll (Stream.decodeEntity r).1 b = f b) ∧
    ((∀ f t, ¬ Complete r f t) → ∀ b, execAll (Stream.commands (amp :: r)) b =
      execAll (Stream.commands (bytes "&amp;" ++ r)) b) ∧
    ∀ base pre s, NumPrefix base pre → ∀ x s',
      Stream.NumState base ⟨pre, 0, false, s.head?⟩ s x s' →
        x.cp ≤ 0x10FFFF ∧ Stream.numLoop base ⟨pre, 0, false, s.head?⟩ s =
          Stream.numLoop base x s' := by
  refine ⟨fun f t => Stream.decodeEntity_complete, fun h b => ?_, fun base pre s _ x s' hx => ?_⟩
  · rw [Stream.commands_incomplete h, Stream.commands_amp]
    rfl
  · exact ⟨hx.cp_le (Nat.zero_le _), hx.numLoop_eq⟩

/-! ## 4. Numbers of any length in both versions -/

/-- A reference by number, between its `&` and its semicolon. -/
structure NumericRef where
  base : Nat
  pre : List UInt8
  digits : List UInt8
  start : NumPrefix base pre
  isDigits : Digits base digits
  nonempty : digits ≠ []

namespace NumericRef

variable (ref : NumericRef)

def bytes : List UInt8 := ref.pre ++ ref.digits

def value : Nat := valueFrom ref.base 0 ref.digits

/-- A character is put on the line for the reference only if its value is a Unicode scalar value,
and then it is that character: otherwise nothing is, or the reference itself as it was read. -/
def Exact (cs : List Cmd) : Prop :=
  cs = [] ∨ (∃ u, u <+: ref.bytes ∧ cs = Stream.resend u) ∨
    ref.value.isValidChar ∧ ∀ b, execAll cs b = character ref.value b

/-- The value does not wrap around in 32 bits, or only to a number that gives no character. -/
def Unwrapped : Prop :=
  let v := ref.value % 2 ^ 32
  ref.value < 2 ^ 32 ∨ v = 0 ∨ v > 0x10FFFF ∨ (0xD800 ≤ v ∧ v ≤ 0xDFFF)

theorem head_ne (t : List UInt8) : ref.base = 10 →
    ¬ ((ref.digits ++ semicolon :: t).head? = some 0x78 ∨
      (ref.digits ++ semicolon :: t).head? = some 0x58) := by
  intro _
  obtain ⟨d, ds, hds⟩ := List.exists_cons_of_ne_nil ref.nonempty
  have hdigit := ref.isDigits d (by rw [hds]; exact List.mem_cons_self)
  rw [hds]
  rintro (hd | hd) <;> cases hd <;> cases hdigit

theorem exact_emitCodePoint : ref.Exact (emitCodePoint (ref.value % 2 ^ 32)) ↔ ref.Unwrapped := by
  have hnil : emitCodePoint (ref.value % 2 ^ 32) = [] ↔ ref.value % 2 ^ 32 = 0 ∨
      ref.value % 2 ^ 32 > 0x10FFFF ∨
        (0xD800 ≤ ref.value % 2 ^ 32 ∧ ref.value % 2 ^ 32 ≤ 0xDFFF) := by
    unfold emitCodePoint
    split
    · next h => exact iff_of_true rfl h
    · next h => split <;> exact iff_of_false (List.cons_ne_nil _ _) h
  constructor
  · rintro (hdropped | ⟨u, -, htext⟩ | ⟨hvalid, -⟩)
    · exact .inr (hnil.mp hdropped)
    · -- what is decoded is no text
      unfold emitCodePoint at htext
      split at htext
      · cases htext
      · split at htext <;> cases htext
    · left
      unfold Nat.isValidChar at hvalid
      omega
  · rintro (hlt | hdropped)
    -- without a wrap the sum is the value, and it is dropped or decoded
    · rw [Nat.mod_eq_of_lt hlt] at hnil ⊢
      by_cases hchar : emitCodePoint ref.value = []
      · exact .inl hchar
      · have hkept := mt hnil.mpr hchar
        have hvalid : ref.value.isValidChar := by
          unfold Nat.isValidChar
          omega
        exact .inr (.inr ⟨hvalid, execAll_emitCodePoint (by omega)⟩)
    · exact .inl (hnil.mpr hdropped)

end NumericRef

theorem isPrefix_of_notMem {c : UInt8} {u v t t' : List UInt8} (h : v ++ c :: t = u ++ t')
    (hu : c ∉ u) : u <+: v := by
  rcases List.append_eq_append_iff.mp h with ⟨w, rfl, hw⟩ | ⟨w, rfl, -⟩
  · cases w with
    | nil => rw [List.append_nil]
    | cons d w =>
      obtain ⟨rfl, -⟩ := List.cons.inj hw
      exact absurd (List.mem_append_right v List.mem_cons_self) hu
  · exact List.prefix_append u w

theorem semicolon_notMem {base : Nat} {u : List UInt8} (hu : Digits base u) : semicolon ∉ u := by
  intro hmem
  have hdigit := hu semicolon hmem
  rw [digitOf_semicolon] at hdigit
  cases hdigit

/-- The streaming version stops before the value leaves the code points. -/
theorem Stream.numericDigits_exact (ref : NumericRef) (t : List UInt8) :
    ref.Exact (numericDigits ref.base ref.pre (ref.digits ++ semicolon :: t)).1 := by
  obtain ⟨u, hu, ⟨t', -, -, hval, hs, heq⟩ | ⟨t', hs, heq⟩⟩ :=
    numericDigits_cases ref.start (ref.digits ++ semicolon :: t)
  -- the digits that were read end where the reference does: no digit is a semicolon
  · have hle := isPrefix_of_notMem hs (semicolon_notMem hu)
    have hge := isPrefix_of_notMem hs.symm (semicolon_notMem ref.isDigits)
    obtain rfl : u = ref.digits := hle.eq_of_length_le hge.length_le
    have hlt : ref.value < 2 ^ 32 := Nat.lt_of_le_of_lt hval (by decide)
    have hexact := ref.exact_emitCodePoint.mpr (.inl hlt)
    rw [Nat.mod_eq_of_lt hlt] at hexact
    rw [heq]
    exact hexact
  · rw [heq]
    refine .inr (.inl ⟨ref.pre ++ u, ?_, rfl⟩)
    rw [NumericRef.bytes, List.prefix_append_right_inj]
    exact isPrefix_of_notMem hs (semicolon_notMem hu)

/-- What both versions do with the reference behind `a`. -/
theorem decodeEntity_numbers (a : List UInt8) (ref : NumericRef) (t : List UInt8) :
    Stream.decodeEntity (ref.bytes ++ semicolon :: t) =
        Stream.numericDigits ref.base ref.pre (ref.digits ++ semicolon :: t) ∧
      (Whole.decodeEntity (a ++ amp :: (ref.bytes ++ semicolon :: t)) a.length).1 =
        emitCodePoint (ref.value % 2 ^ 32) := by
  have hbytes : ref.bytes ++ semicolon :: t = ref.pre ++ (ref.digits ++ semicolon :: t) :=
    List.append_assoc _ _ _
  have hdrop : (a ++ amp :: (ref.bytes ++ semicolon :: t)).drop a.length =
      amp :: (ref.pre ++ (ref.digits ++ semicolon :: t)) := by
    rw [List.drop_left, hbytes]
  obtain ⟨hdigits, hstream, hwhole⟩ := Whole.decodeEntity_number ref.start (ref.head_ne t) hdrop
  refine ⟨by rw [hbytes, hstream], ?_⟩
  rw [hwhole, Whole.numericDigits_wrapped hdigits ref.isDigits ref.nonempty]
  rfl

/-- Both versions are exact on a reference, wherever it stands, unless its value wraps around to a
character. -/
theorem numbers_exact_iff (a : List UInt8) (ref : NumericRef) (t : List UInt8) :
    (ref.Exact (Stream.decodeEntity (ref.bytes ++ semicolon :: t)).1 ∧
      ref.Exact (Whole.decodeEntity (a ++ amp :: (ref.bytes ++ semicolon :: t)) a.length).1) ↔
    ref.Unwrapped := by
  obtain ⟨hstream, hwhole⟩ := decodeEntity_numbers a ref t
  rw [hstream, hwhole, ref.exact_emitCodePoint]
  exact and_iff_right (Stream.numericDigits_exact ref t)

/-- `&#4294967361;`, whose value is that of `A` modulo `2 ^ 32`. -/
def wrappedRef : NumericRef where
  base := 10
  pre := [hash]
  digits := Ascii.bytes "4294967361"
  start := .decimal
  isDigits := by
    have hall : ((Ascii.bytes "4294967361").all fun c => (digitOf 10 c).isSome) = true := by
      decide +kernel
    exact List.all_eq_true.mp hall
  nonempty := by decide

/-- The whole-buffer version prints an `A` for it. -/
theorem not_numbers_exact_wrapped : ¬ ∀ (a : List UInt8) (ref : NumericRef) (t : List UInt8),
    ref.Exact (Stream.decodeEntity (ref.bytes ++ semicolon :: t)).1 ∧
      ref.Exact (Whole.decodeEntity (a ++ amp :: (ref.bytes ++ semicolon :: t)) a.length).1 := by
  intro h
  have hexact := (h [] wrappedRef []).2
  rw [(decodeEntity_numbers [] wrappedRef []).2] at hexact
  obtain hlt | hzero | hbig | hsurrogate := wrappedRef.exact_emitCodePoint.mp hexact
  · exact absurd hlt (by decide +kernel)
  · exact absurd hzero (by decide +kernel)
  · exact absurd hbig (by decide +kernel)
  · exact absurd hsurrogate (by decide +kernel)

end H2t
