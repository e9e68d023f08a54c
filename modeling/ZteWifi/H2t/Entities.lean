import ZteWifi.H2t.Scanners

/-!
# Character references

What `decode_entity` of `h2t.c` reads: a whole reference, or bytes that it sends on as text.
-/

open Ascii LineBuf

namespace H2t

/-! ## 1. References by number -/

/-- What stands before the digits of a base. -/
inductive NumPrefix : Nat → List UInt8 → Prop
  | decimal : NumPrefix 10 [hash]
  | hex {c : UInt8} (hc : c = 0x78 ∨ c = 0x58) : NumPrefix 16 [hash, c]

theorem NumPrefix.length_le {base : Nat} {u : List UInt8} (h : NumPrefix base u) :
    u.length ≤ 2 := by
  cases h with
  | decimal => exact Nat.le_succ 1
  | hex => exact Nat.le_refl 2

def Digits (base : Nat) (ds : List UInt8) : Prop := ∀ c ∈ ds, (digitOf base c).isSome

/-- The number that digits stand for, behind others that stand for `v`. -/
def valueFrom (base v : Nat) (ds : List UInt8) : Nat :=
  ds.foldl (fun v c => v * base + (digitOf base c).getD 0) v

theorem le_valueFrom {base : Nat} (hbase : 0 < base) (v : Nat) (ds : List UInt8) :
    v ≤ valueFrom base v ds := by
  induction ds generalizing v with
  | nil => exact Nat.le_refl v
  | cons c ds ih =>
    refine Nat.le_trans ?_ (ih _)
    exact Nat.le_trans (Nat.le_mul_of_pos_right v hbase) (Nat.le_add_right _ _)

/-- Bytes that are text by themselves: letters and digits, and `#`. -/
def isTextByte (c : UInt8) : Bool := isalnum c || c = hash

theorem digitOf_isTextByte {base : Nat} {c : UInt8} (h : (digitOf base c).isSome) :
    isTextByte c := by
  have hall : ∀ c : UInt8, (hexDigit c).isSome → isTextByte c := by decide +kernel
  refine hall c ?_
  obtain ⟨d, hd⟩ := Option.isSome_iff_exists.mp h
  exact Option.isSome_iff_exists.mpr ⟨d, (Option.filter_eq_some_iff.mp hd).1⟩

theorem digitOf_semicolon (base : Nat) : digitOf base semicolon = none := rfl

namespace Stream

/-- Digits whose value is a code point are all read. -/
theorem numLoop_all {base : Nat} (hbase : 0 < base) {ds : List UInt8} (hds : Digits base ds)
    {r : NumRef} (t : List UInt8) (hlen : r.tmp.length + ds.length + 1 < 40)
    (hval : valueFrom base r.cp ds ≤ 0x10FFFF) :
    numLoop base r (ds ++ semicolon :: t) =
      (⟨r.tmp ++ ds, valueFrom base r.cp ds, r.any || decide (ds ≠ []), some semicolon⟩,
        semicolon :: t) := by
  induction ds generalizing r with
  | nil =>
    rw [List.nil_append, numLoop, if_pos (by simpa using hlen), digitOf_semicolon]
    simp [valueFrom]
  | cons c ds ih =>
    obtain ⟨d, hd⟩ := Option.isSome_iff_exists.mp (hds c List.mem_cons_self)
    rw [List.length_cons] at hlen
    have hstep : valueFrom base r.cp (c :: ds) = valueFrom base (r.cp * base + d) ds := by
      rw [valueFrom, List.foldl_cons, hd]
      rfl
    rw [hstep] at hval ⊢
    have hle := Nat.le_trans (le_valueFrom hbase _ ds) hval
    have hfits : ¬ r.cp > (0x10FFFF - d) / base := by
      rw [Nat.not_lt, Nat.le_div_iff_mul_le hbase]
      omega
    rw [List.cons_append, numLoop, if_pos (by omega), hd]
    simp only [if_neg hfits]
    rw [ih (fun c hc => hds c (List.mem_cons_of_mem _ hc))
      (by rw [List.length_append, List.length_singleton]; omega) hval]
    simp

/-- What the loop over the digits has read when it stops. -/
structure NumRead (base : Nat) (r : NumRef) (s u : List UInt8) (r' : NumRef)
    (rest : List UInt8) : Prop where
  bytes : s = u ++ rest
  tmp : r'.tmp = r.tmp ++ u
  digits : Digits base u
  cp : r'.cp = valueFrom base r.cp u
  bounded : r.cp ≤ 0x10FFFF → r'.cp ≤ 0x10FFFF
  any : r'.any = true → r.any = true ∨ u ≠ []
  /-- A semicolon that it has seen is the next byte, and there was room to look at it. -/
  semi : r'.c = some semicolon → rest.head? = some semicolon ∧ r'.tmp.length + 1 < 40

theorem digitOf_lt {base : Nat} {c : UInt8} {d : Nat} (h : digitOf base c = some d) : d < 16 :=
  hexDigit_lt (Option.filter_eq_some_iff.mp h).1

/-- The loop stops at once. -/
theorem NumRead.refl {base : Nat} {r r' : NumRef} {s : List UInt8} (htmp : r'.tmp = r.tmp)
    (hcp : r'.cp = r.cp) (hany : r'.any = r.any)
    (hsemi : r'.c = some semicolon → s.head? = some semicolon ∧ r'.tmp.length + 1 < 40) :
    NumRead base r s [] r' s :=
  ⟨rfl, by rw [htmp, List.append_nil], List.forall_mem_nil _, hcp, fun h => by rwa [hcp],
    fun h => .inl (hany ▸ h), hsemi⟩

theorem numLoop_read (base : Nat) (s : List UInt8) (r : NumRef)
    (hc : r.tmp.length + 1 < 40 ∨ r.c ≠ some semicolon) :
    ∃ u, NumRead base r s u (numLoop base r s).1 (numLoop base r s).2 := by
  induction s generalizing r with
  | nil =>
    rw [numLoop]
    split
    · exact ⟨[], .refl rfl rfl rfl fun h => by cases h⟩
    · next hfull => exact ⟨[], .refl rfl rfl rfl fun h => absurd h (hc.resolve_left hfull)⟩
  | cons c s ih =>
    rw [numLoop]
    split
    · next hroom =>
      split
      · exact ⟨[], .refl rfl rfl rfl fun h => ⟨h, hroom⟩⟩
      · next d hd =>
        split
        · exact ⟨[], .refl rfl rfl rfl fun h => ⟨h, hroom⟩⟩
        · next hfits =>
          have hne : some c ≠ some semicolon := by
            rintro ⟨⟩
            cases hd
          have hd16 := digitOf_lt hd
          -- the test before the step keeps the sum below the last code point
          have hstep : r.cp * base + d ≤ 0x10FFFF := by
            have hmul := Nat.mul_le_of_le_div base r.cp (0x10FFFF - d) (Nat.not_lt.mp hfits)
            omega
          obtain ⟨u, hread⟩ := ih ⟨r.tmp ++ [c], r.cp * base + d, true, some c⟩ (.inr hne)
          refine ⟨c :: u, by rw [List.cons_append, ← hread.bytes], ?_, ?_, ?_,
            fun _ => hread.bounded hstep, fun _ => .inr (List.cons_ne_nil _ _), hread.semi⟩
          · rw [hread.tmp, List.append_assoc, List.singleton_append]
          · exact List.forall_mem_cons.mpr ⟨by rw [hd]; rfl, hread.digits⟩
          · rw [hread.cp, valueFrom, valueFrom, List.foldl_cons, hd]
            rfl
    · next hfull => exact ⟨[], .refl rfl rfl rfl fun h => absurd h (hc.resolve_left hfull)⟩

theorem nameLoop_all {n : List UInt8} (hn : ∀ c ∈ n, isalnum c) {tmp : List UInt8}
    {c : Option UInt8} (t : List UInt8) (hlen : tmp.length + n.length + 1 < 40) :
    nameLoop tmp c (n ++ semicolon :: t) = (tmp ++ n, some semicolon, semicolon :: t) := by
  induction n generalizing tmp c with
  | nil =>
    rw [List.nil_append, nameLoop, if_pos (by simpa using hlen), if_neg (by decide),
      List.append_nil]
  | cons d n ih =>
    rw [List.length_cons] at hlen
    rw [List.cons_append, nameLoop, if_pos (by omega), if_pos (hn d List.mem_cons_self),
      ih (fun c hc => hn c (List.mem_cons_of_mem _ hc))
        (by rw [List.length_append, List.length_singleton]; omega),
      List.append_assoc, List.singleton_append]

/-- The same for the loop over a name. -/
theorem nameLoop_spec (s tmp : List UInt8) (c : Option UInt8)
    (hc : tmp.length + 1 < 40 ∨ c ≠ some semicolon) :
    ∃ u, s = u ++ (nameLoop tmp c s).2.2 ∧ (nameLoop tmp c s).1 = tmp ++ u ∧
      (∀ c ∈ u, isalnum c) ∧
      ((nameLoop tmp c s).2.1 = some semicolon →
        (nameLoop tmp c s).2.2.head? = some semicolon ∧ (nameLoop tmp c s).1.length + 1 < 40) := by
  induction s generalizing tmp c with
  | nil =>
    rw [nameLoop]
    split
    · exact ⟨[], rfl, (List.append_nil _).symm, List.forall_mem_nil _, fun h => by cases h⟩
    · next hfull =>
      exact ⟨[], rfl, (List.append_nil _).symm, List.forall_mem_nil _,
        fun h => absurd h (hc.resolve_left hfull)⟩
  | cons d s ih =>
    rw [nameLoop]
    split
    · next hroom =>
      split
      · next hd =>
        have hne : some d ≠ some semicolon := by
          rintro ⟨⟩
          exact absurd hd (by decide)
        obtain ⟨u, hs, htmp, hall, hsemi⟩ := ih (tmp ++ [d]) (some d) (.inr hne)
        refine ⟨d :: u, by rw [List.cons_append, ← hs], ?_,
          List.forall_mem_cons.mpr ⟨hd, hall⟩, hsemi⟩
        rw [htmp, List.append_assoc, List.singleton_append]
      · exact ⟨[], rfl, (List.append_nil _).symm, List.forall_mem_nil _, fun h => ⟨h, hroom⟩⟩
    · next hfull =>
      exact ⟨[], rfl, (List.append_nil _).symm, List.forall_mem_nil _,
        fun h => absurd h (hc.resolve_left hfull)⟩

theorem isTextByte_of_isalnum {c : UInt8} (h : isalnum c) : isTextByte c := by
  rw [isTextByte, h, Bool.true_or]

/-! ## 2. Where a reference ends -/

/-- Digits have been read: behind them stands the semicolon of a reference, or they go out as
text. -/
theorem numericDigits_cases {base : Nat} {pre : List UInt8} (hpre : NumPrefix base pre)
    (s : List UInt8) : ∃ u, Digits base u ∧
      ((∃ t, u ≠ [] ∧ pre.length + u.length ≤ 38 ∧ valueFrom base 0 u ≤ 0x10FFFF ∧
        s = u ++ semicolon :: t ∧
        numericDigits base pre s = (emitCodePoint (valueFrom base 0 u), t)) ∨
      ∃ t, s = u ++ t ∧ numericDigits base pre s = (resend (pre ++ u), t)) := by
  have hroom : pre.length + 1 < 40 := by
    have hle := hpre.length_le
    omega
  obtain ⟨u, hread⟩ := numLoop_read base s ⟨pre, 0, false, s.head?⟩ (.inl hroom)
  refine ⟨u, hread.digits, ?_⟩
  rw [numericDigits]
  rcases hrun : numLoop base ⟨pre, 0, false, s.head?⟩ s with ⟨r, rest⟩
  rw [hrun] at hread
  simp only
  split
  · next hend =>
    -- the semicolon that the loop has seen is still unread
    obtain ⟨hhead, hlen⟩ := hread.semi hend.2
    obtain ⟨t, rfl⟩ := List.head?_eq_some_iff.mp hhead
    have hne : u ≠ [] := (hread.any hend.1).resolve_left Bool.false_ne_true
    have hle : pre.length + u.length ≤ 38 := by
      rw [hread.tmp, List.length_append] at hlen
      exact Nat.le_of_lt_succ (Nat.lt_of_succ_lt_succ hlen)
    have hval := hread.bounded (Nat.zero_le _)
    rw [hread.cp] at hval
    exact .inl ⟨t, hne, hle, hval, hread.bytes, by rw [hread.cp]; rfl⟩
  · exact .inr ⟨rest, hread.bytes, by rw [hread.tmp]⟩

/-- The same for a name. -/
theorem namedEntity_cases (c : UInt8) (s : List UInt8) : ∃ n, (∀ d ∈ n, isalnum d) ∧
    ((∃ t, n ≠ [] ∧ n.length ≤ 38 ∧ c :: s = n ++ semicolon :: t ∧
      namedEntity c s = (emitKnownEntity (n.map tolower), t)) ∨
    ∃ t, c :: s = n ++ t ∧ namedEntity c s = (resend n, t)) := by
  obtain ⟨n, hs, htmp, hall, hsemi⟩ := nameLoop_spec (c :: s) [] (some c) (.inl (by decide))
  refine ⟨n, hall, ?_⟩
  rw [namedEntity]
  rcases hrun : nameLoop [] (some c) (c :: s) with ⟨tmp, d, rest⟩
  rw [hrun] at hs htmp hsemi
  simp only [List.nil_append] at hs htmp hsemi ⊢
  subst htmp
  split
  · next hnil => exact .inr ⟨rest, hs, by rw [hnil]; rfl⟩
  next hne =>
  split
  · next hseen =>
    obtain ⟨hhead, hlen⟩ := hsemi hseen
    obtain ⟨t, rfl⟩ := List.head?_eq_some_iff.mp hhead
    exact .inl ⟨t, hne, Nat.le_of_lt_succ (Nat.lt_of_succ_lt_succ hlen), hs, rfl⟩
  · exact .inr ⟨rest, hs, rfl⟩

theorem NumPrefix.isTextByte {base : Nat} {pre : List UInt8} (h : NumPrefix base pre) :
    ∀ c ∈ pre, isTextByte c := by
  cases h with
  | decimal => decide +kernel
  | hex hc => rcases hc with rfl | rfl <;> decide +kernel

/-- What is read as an entity and is none goes out as text. -/
def Resent (s : List UInt8) (x : List Cmd × List UInt8) : Prop :=
  ∃ u, s = u ++ x.2 ∧ x.1 = resend u ∧ ∀ c ∈ u, isTextByte c

/-- A number without digits or without a semicolon behind them. -/
theorem numericDigits_resent {base : Nat} {pre s : List UInt8} (hpre : NumPrefix base pre)
    (h : ∀ ds t, Digits base ds → ds ≠ [] → s ≠ ds ++ semicolon :: t) :
    Resent (pre ++ s) (numericDigits base pre s) := by
  obtain ⟨u, hu, ⟨t, hne, -, -, hs, -⟩ | ⟨t, hs, heq⟩⟩ := numericDigits_cases hpre s
  · exact absurd hs (h u t hu hne)
  · rw [heq]
    refine ⟨pre ++ u, by rw [hs, List.append_assoc], rfl, ?_⟩
    rw [List.forall_mem_append]
    exact ⟨NumPrefix.isTextByte hpre, fun c hc => digitOf_isTextByte (hu c hc)⟩

/-- A name without a semicolon behind it. -/
theorem namedEntity_resent {c : UInt8} {s : List UInt8}
    (h : ∀ n t, (∀ c ∈ n, isalnum c) → n ≠ [] → c :: s ≠ n ++ semicolon :: t) :
    Resent (c :: s) (namedEntity c s) := by
  obtain ⟨n, hn, ⟨t, hne, -, hs, -⟩ | ⟨t, hs, heq⟩⟩ := namedEntity_cases c s
  · exact absurd hs (h n t hn hne)
  · rw [heq]
    exact ⟨n, hs, rfl, fun d hd => isTextByte_of_isalnum (hn d hd)⟩

theorem numericDigits_all {base : Nat} {pre ds : List UInt8} (hpre : NumPrefix base pre)
    (hds : Digits base ds) (hne : ds ≠ []) (hlen : pre.length + ds.length ≤ 38)
    (hval : valueFrom base 0 ds ≤ 0x10FFFF) (t : List UInt8) :
    numericDigits base pre (ds ++ semicolon :: t) = (emitCodePoint (valueFrom base 0 ds), t) := by
  have hbase : 0 < base := by cases hpre <;> decide
  rw [numericDigits, numLoop_all hbase hds t (by simp only; omega) hval]
  simp only [Bool.false_or, decide_eq_true hne, true_and, if_true, List.tail_cons]

theorem namedEntity_all {c : UInt8} {n : List UInt8} (hn : ∀ d ∈ c :: n, isalnum d)
    (hlen : (c :: n).length ≤ 38) (t : List UInt8) :
    namedEntity c (n ++ semicolon :: t) = (emitKnownEntity ((c :: n).map tolower), t) := by
  rw [namedEntity, ← List.cons_append, nameLoop_all hn t (by simp only [List.length_nil]; omega)]
  rfl

/-! ## 3. Any reference -/

/-- What becomes of a reference: it is text after all, a code point or a known name. -/
inductive Decoded : List Cmd → Prop
  | text {u : List UInt8} (hu : ∀ c ∈ u, isTextByte c) : Decoded (resend u)
  | code (cp : Nat) : Decoded (emitCodePoint cp)
  | known (name : List UInt8) : Decoded (emitKnownEntity name)

/-- ASCII bytes are read, and a reference is decoded. -/
def Reads (s : List UInt8) (x : List Cmd × List UInt8) : Prop :=
  Decoded x.1 ∧ ∃ u, s = u ++ x.2 ∧ ∀ c ∈ u, c < 0x80

theorem isTextByte_ascii : ∀ c : UInt8, isTextByte c → c < 0x80 := by decide +kernel

theorem numericDigits_reads {base : Nat} {pre : List UInt8} (hpre : NumPrefix base pre)
    (s : List UInt8) : Reads s (numericDigits base pre s) := by
  obtain ⟨u, hu, hcases⟩ := numericDigits_cases hpre s
  have htext : ∀ c ∈ u, isTextByte c := fun c hc => digitOf_isTextByte (hu c hc)
  have hascii : ∀ c ∈ u, c < 0x80 := fun c hc => isTextByte_ascii c (htext c hc)
  rcases hcases with ⟨t, -, -, -, hs, heq⟩ | ⟨t, hs, heq⟩
  · rw [heq]
    refine ⟨.code _, u ++ [semicolon], by rw [hs, List.append_assoc]; rfl, ?_⟩
    rw [List.forall_mem_append, List.forall_mem_singleton]
    exact ⟨hascii, by decide⟩
  · rw [heq]
    have hall : ∀ c ∈ pre ++ u, isTextByte c :=
      List.forall_mem_append.mpr ⟨NumPrefix.isTextByte hpre, htext⟩
    exact ⟨.text hall, u, hs, hascii⟩

theorem namedEntity_reads (c : UInt8) (s : List UInt8) : Reads (c :: s) (namedEntity c s) := by
  obtain ⟨n, hn, hcases⟩ := namedEntity_cases c s
  have htext : ∀ d ∈ n, isTextByte d := fun d hd => isTextByte_of_isalnum (hn d hd)
  have hascii : ∀ d ∈ n, d < 0x80 := fun d hd => isTextByte_ascii d (htext d hd)
  rcases hcases with ⟨t, -, -, hs, heq⟩ | ⟨t, hs, heq⟩
  · rw [heq]
    refine ⟨.known _, n ++ [semicolon], by rw [hs, List.append_assoc]; rfl, ?_⟩
    rw [List.forall_mem_append, List.forall_mem_singleton]
    exact ⟨hascii, by decide⟩
  · rw [heq]
    exact ⟨.text htext, n, hs, hascii⟩

theorem decodeEntity_reads (s : List UInt8) : Reads s (decodeEntity s) := by
  have hcons {c : UInt8} (hc : c < 0x80) {s : List UInt8} {x : List Cmd × List UInt8}
      (h : Reads s x) : Reads (c :: s) x := by
    obtain ⟨hx, u, hs, hu⟩ := h
    exact ⟨hx, c :: u, by rw [hs]; rfl, List.forall_mem_cons.mpr ⟨hc, hu⟩⟩
  cases s with
  | nil => exact ⟨.text (List.forall_mem_nil _), [], rfl, List.forall_mem_nil _⟩
  | cons c s =>
    rw [decodeEntity]
    split
    · next hhash =>
      refine hcons (by rw [hhash]; decide) ?_
      cases s with
      | nil => exact numericDigits_reads .decimal []
      | cons d s =>
        rw [numericEntity]
        split
        · next hx =>
          have hd : d < 0x80 := by rcases hx with rfl | rfl <;> decide
          exact hcons hd (numericDigits_reads (.hex hx) s)
        · exact numericDigits_reads .decimal (d :: s)
    · exact namedEntity_reads c s

end Stream

end H2t
