import Mathlib.Algebra.Group.Nat.Defs
import Mathlib.Data.List.DropRight
import ZteWifi.Websh.Strtol

/-!
# The length of a script

`parse_head` of `websh.c`, and the checks of `main` behind it.  The value of the field is copied
into 32 bytes and read by `strtol`; the two together do not take every number as it is written, and
take some that are none.
-/

open Ascii Net

namespace Websh

/-! ## 1. The routines -/

/-- A blank in front of a value. -/
def isBlank (c : UInt8) : Bool := c = space || c = 0x09

/-- What stands behind the name of the field, on a line that has it. -/
def lengthValue (line : List UInt8) : Option (List UInt8) :=
  let line := chopCr line
  if (line.take 15).map tolower = bytes "content-length:" then some (line.drop 15) else none

/-- The bytes that are copied to `tmp`. -/
def copied (val : List UInt8) : List UInt8 := (val.dropWhile isBlank).take 31

/-- The number of a value; `none` is the result `-2`. -/
def readLength (val : List UInt8) : Option Int :=
  let tmp := copied val
  if tmp = [] then none
  else
    let v := strtol tmp
    if v.erange ∨ tmp.getD v.endp 0 ≠ 0 ∨ v.val < 0 then none else some v.val

/-- The loop of `parse_head` over the lines: its result and `*clen`. -/
def parseLines (seen : Bool) (clen : Int) : List (List UInt8) → Int × Int
  | [] => (0, clen)
  | line :: lines =>
    match lengthValue line with
    | none => parseLines seen clen lines
    | some val =>
      if seen then (-2, clen)
      else
        match readLength val with
        | none => (-2, clen)
        | some v => parseLines true v lines

/-- `parse_head`.  Behind a last `\n` the source sees no line, and an empty line has no field. -/
def parseHead (p : List UInt8) : Int × Int :=
  if p.take 5 = bytes "POST " then parseLines false (-1) (p.splitOn nl) else (-1, -1)

/-- `MAX_BODY` -/
@[simp] abbrev maxBody : Nat := 64 * 1024

/-- The checks of `main` on a header that is no `GET`: the status it is refused with, or the length
of the script. -/
def postLength (head : List UInt8) : Except (List UInt8) Nat :=
  match parseHead head with
  | (pr, clen) =>
    if pr = -1 then .error (bytes "405 Method Not Allowed")
    else if pr = -2 then .error (bytes "400 Bad Request")
    else if clen < 0 then .error (bytes "411 Length Required")
    else if clen = 0 then .error (bytes "400 Bad Request")
    else if clen > maxBody then .error (bytes "413 Request Entity Too Large")
    else .ok clen.toNat

/-! ## 2. The length that is meant -/

/-- A value without the blanks around it. -/
def trim (val : List UInt8) : List UInt8 := (val.dropWhile isBlank).rdropWhile isBlank

/-- The bytes are the decimal digits of a number that a `long` can hold. -/
def Decimal (w : List UInt8) (v : Nat) : Prop :=
  w ≠ [] ∧ (∀ c ∈ w, isdigit c) ∧ numeral w = v ∧ v ≤ longMax

/-- The values of the field, line by line. -/
def lengthValues (p : List UInt8) : List (List UInt8) := (p.splitOn nl).filterMap lengthValue

/-- `parse_head` reads the length that the header gives. -/
structure Exact (p : List UInt8) : Prop where
  given : ∀ v : Nat, parseHead p = (0, (v : Int)) ↔
    ∃ val, lengthValues p = [val] ∧ Decimal (trim val) v
  absent : lengthValues p = [] → parseHead p = (0, -1)
  refused : lengthValues p ≠ [] → (∀ val v, lengthValues p = [val] → ¬ Decimal (trim val) v) →
    (parseHead p).1 = -2

/-- The value is a number of fewer than 31 digits without a blank behind it, or one whose digits
behind the first 31 do not count; or it is no number, and its first 31 bytes are none either. -/
def Plain (val : List UInt8) : Prop :=
  (∀ v, Decimal (trim val) v →
    ((trim val).length < 31 → val.dropWhile isBlank = trim val) ∧
      (31 < (trim val).length → v = 0)) ∧
  ((∀ v, ¬ Decimal (trim val) v) →
    (val.dropWhile isBlank).head? ≠ some 0 ∧ ∀ v, 0 ≤ v → ¬ Signed (cstr (copied val)) v)

/-! ## 3. Digits -/

theorem numeral_append (a b : List UInt8) :
    numeral (a ++ b) = b.foldl (fun v c => v * 10 + (c.toNat - 0x30)) (numeral a) := by
  rw [numeral, numeral, List.foldl_append]

/-- Further digits make a number at least ten times as large. -/
theorem numeral_le_foldl (v : Nat) (ds : List UInt8) :
    v * 10 ^ ds.length ≤ ds.foldl (fun v c => v * 10 + (c.toNat - 0x30)) v := by
  induction ds generalizing v with
  | nil => simp
  | cons d ds ih =>
    calc v * 10 ^ (d :: ds).length
        = v * 10 * 10 ^ ds.length := by rw [List.length_cons, Nat.pow_succ', Nat.mul_assoc]
      _ ≤ (v * 10 + (d.toNat - 0x30)) * 10 ^ ds.length :=
          Nat.mul_le_mul_right _ (Nat.le_add_right _ _)
      _ ≤ _ := ih _

theorem numeral_take (k : Nat) (ds : List UInt8) :
    numeral (ds.take k) * 10 ^ (ds.length - k) ≤ numeral ds := by
  have hle := numeral_le_foldl (numeral (ds.take k)) (ds.drop k)
  rwa [← numeral_append, List.take_append_drop, List.length_drop] at hle

/-- The first digits of a longer number stand for the same number if that is 0, and only then. -/
theorem numeral_take_eq {k : Nat} {ds : List UInt8} (hk : k < ds.length) :
    numeral (ds.take k) = numeral ds ↔ numeral ds = 0 := by
  have hle := numeral_take k ds
  have hten : 10 ≤ 10 ^ (ds.length - k) := Nat.le_self_pow (by omega) 10
  constructor
  · intro heq
    rw [heq] at hle
    have hmul := Nat.mul_le_mul_left (numeral ds) hten
    omega
  · intro hzero
    rw [hzero] at hle ⊢
    have hmul := Nat.mul_le_mul_left (numeral (ds.take k)) hten
    omega

theorem cstr_digits {ds : List UInt8} (h : ∀ c ∈ ds, isdigit c) (u : List UInt8) :
    cstr (ds ++ u) = ds ++ cstr u :=
  List.takeWhile_append_of_pos fun c hc => decide_eq_true (isdigit_ne_zero c (h c hc))

/-- A number that begins with a digit has neither blanks nor a sign. -/
theorem Signed.of_digit {d : UInt8} (hd : isdigit d) {s : List UInt8} {v : Int}
    (h : Signed (d :: s) v) :
    (∀ c ∈ d :: s, isdigit c) ∧ v = numeral (d :: s) ∧ numeral (d :: s) ≤ longMax := by
  obtain ⟨blanks, sign, ds, heq, hblanks, hsign, -, hds, hval⟩ := h
  have hnil : blanks = [] := by
    rcases blanks with _ | ⟨c, blanks⟩
    · rfl
    · cases heq
      exact absurd (hblanks d List.mem_cons_self) (isdigit_not_isspace d hd)
  subst hnil
  rcases hsign with rfl | rfl | rfl
  · rw [List.nil_append, List.nil_append] at heq
    subst heq
    exact ⟨hds, hval⟩
  · cases heq
    exact absurd hd (by decide)
  · cases heq
    exact absurd hd (by decide)

theorem signed_digits {ds : List UInt8} (hne : ds ≠ []) (hds : ∀ c ∈ ds, isdigit c)
    (hle : numeral ds ≤ longMax) : Signed ds (numeral ds) :=
  ⟨[], [], ds, rfl, by simp, .inl rfl, hne, hds, rfl, hle⟩

/-! ## 4. One value -/

theorem readLength_eq_some {val : List UInt8} {v : Int} :
    readLength val = some v ↔ copied val ≠ [] ∧ 0 ≤ v ∧
      (cstr (copied val) = [] ∧ v = 0 ∨ Signed (cstr (copied val)) v) := by
  rw [← strtol_spec, readLength]
  simp only
  by_cases hnil : copied val = []
  · rw [if_pos hnil]
    exact ⟨fun h => (by cases h), fun h => absurd hnil h.1⟩
  · rw [if_neg hnil]
    split
    · next hbad =>
      refine ⟨fun h => (by cases h), ?_⟩
      rintro ⟨-, hv, ⟨herange, hend⟩, hval⟩
      rcases hbad with hbad | hbad | hbad
      · exact absurd (herange.symm.trans hbad) (by decide)
      · exact absurd hend hbad
      · omega
    · next hgood =>
      simp only [not_or, Bool.not_eq_true, not_not] at hgood
      obtain ⟨herange, hend, hpos⟩ := hgood
      rw [Option.some_inj]
      constructor
      · intro hval
        exact ⟨hnil, hval ▸ Int.not_lt.mp hpos, ⟨herange, hend⟩, hval⟩
      · exact fun h => h.2.2.2

theorem readLength_digits {val ds : List UInt8} (hcopied : copied val = ds) (hne : ds ≠ [])
    (hds : ∀ c ∈ ds, isdigit c) (hle : numeral ds ≤ longMax) :
    readLength val = some (numeral ds : Int) := by
  have hcstr : cstr ds = ds := by
    have happend := cstr_digits hds []
    rwa [List.append_nil, show cstr [] = [] from rfl, List.append_nil] at happend
  apply readLength_eq_some.mpr
  rw [hcopied, hcstr]
  exact ⟨hne, Int.natCast_nonneg _, .inr (signed_digits hne hds hle)⟩

/-- A value in front of its blanks. -/
theorem trim_append (val : List UInt8) :
    ∃ z, val.dropWhile isBlank = trim val ++ z ∧ ∀ c ∈ z, isBlank c :=
  ⟨_, List.rdropWhile_append_rtakeWhile.symm, fun _ hc => List.mem_rtakeWhile_imp hc⟩

theorem isBlank_not_isdigit : ∀ c, isBlank c → ¬ isdigit c := by decide +kernel

theorem isBlank_ne_zero : ∀ c, isBlank c → c ≠ 0 := by decide +kernel

/-- With a blank behind them fewer than 31 digits are no number. -/
theorem readLength_blank {val : List UInt8} {b : UInt8} {z : List UInt8} (hb : isBlank b)
    (hval : val.dropWhile isBlank = trim val ++ b :: z) (hne : trim val ≠ [])
    (hds : ∀ c ∈ trim val, isdigit c) (hlen : (trim val).length < 31) :
    readLength val = none := by
  have hcopied : copied val = trim val ++ b :: z.take (30 - (trim val).length) := by
    rw [copied, hval, List.take_append, List.take_of_length_le (by omega),
      show 31 - (trim val).length = 30 - (trim val).length + 1 by omega, List.take_succ_cons]
  have hcstr : cstr (copied val) = trim val ++ b :: cstr (z.take (30 - (trim val).length)) := by
    rw [hcopied, cstr_digits hds, cstr, List.takeWhile_cons,
      if_pos (decide_eq_true (isBlank_ne_zero b hb))]
    rfl
  rw [Option.eq_none_iff_forall_ne_some]
  intro v hv
  obtain ⟨-, -, ⟨hnil, -⟩ | hsigned⟩ := readLength_eq_some.mp hv
  · rw [hcstr] at hnil
    exact hne (List.append_eq_nil_iff.mp hnil).1
  · obtain ⟨d, ds, hd⟩ := List.exists_cons_of_ne_nil hne
    rw [hcstr, hd, List.cons_append] at hsigned
    have hdigit : isdigit d := hds d (by rw [hd]; exact List.mem_cons_self)
    have hall := (hsigned.of_digit hdigit).1 b
      (List.mem_cons_of_mem d (List.mem_append_right ds List.mem_cons_self))
    exact isBlank_not_isdigit b hb hall

/-- When a number is read as it is written. -/
theorem readLength_decimal {val : List UInt8} {v : Nat} (h : Decimal (trim val) v) :
    readLength val = some (v : Int) ↔
      ((trim val).length < 31 → val.dropWhile isBlank = trim val) ∧
        (31 < (trim val).length → v = 0) := by
  obtain ⟨hne, hds, rfl, hle⟩ := h
  obtain ⟨z, hval, hz⟩ := trim_append val
  by_cases hshort : (trim val).length < 31
  · have hlong : ¬ 31 < (trim val).length := by omega
    -- fewer than 31 digits are copied with the blank behind them, if there is one
    rcases z with _ | ⟨b, z⟩
    · rw [List.append_nil] at hval
      have hcopied : copied val = trim val := by
        rw [copied, hval, List.take_of_length_le (by omega)]
      exact iff_of_true (readLength_digits hcopied hne hds hle)
        ⟨fun _ => hval, fun h => absurd h hlong⟩
    · rw [readLength_blank (hz b List.mem_cons_self) hval hne hds hshort]
      refine iff_of_false (fun h => by cases h) fun h => ?_
      have hsame := h.1 hshort
      rw [hval] at hsame
      exact absurd (List.append_right_eq_self.mp hsame) (List.cons_ne_nil b z)
  -- of more digits the first 31 are read, and no blank
  · have hcopied : copied val = (trim val).take 31 := by
      rw [copied, hval, List.take_append_of_le_length (by omega)]
    have htake : numeral ((trim val).take 31) ≤ numeral (trim val) :=
      (Nat.le_mul_of_pos_right _ (Nat.pow_pos (by decide))).trans (numeral_take 31 (trim val))
    have hread := readLength_digits hcopied (by simpa using hne)
      (fun c hc => hds c (List.mem_of_mem_take hc)) (htake.trans hle)
    rw [hread, Option.some_inj, Int.ofNat_inj]
    refine Iff.trans ?_ (and_iff_right fun h => absurd h hshort).symm
    by_cases hlong : 31 < (trim val).length
    · rw [numeral_take_eq hlong]
      exact ⟨fun h _ => h, fun h => h hlong⟩
    · rw [List.take_of_length_le (by omega)]
      exact iff_of_true rfl fun h => absurd h hlong

/-- When a value is refused. -/
theorem readLength_none (val : List UInt8) :
    (∀ v : Nat, readLength val ≠ some (v : Int)) ↔
      (val.dropWhile isBlank).head? ≠ some 0 ∧ ∀ v, 0 ≤ v → ¬ Signed (cstr (copied val)) v := by
  -- a NUL in front is the one text without a digit that is accepted
  have hnul : copied val ≠ [] ∧ cstr (copied val) = [] ↔
      (val.dropWhile isBlank).head? = some 0 := by
    rw [copied]
    rcases val.dropWhile isBlank with _ | ⟨c, w⟩
    · simp
    · rw [List.take_succ_cons, cstr_eq_nil, List.getD_cons_zero, List.head?_cons, Option.some_inj]
      exact and_iff_right (List.cons_ne_nil _ _)
  constructor
  · intro h
    refine ⟨fun hhead => ?_, fun v hv hsigned => ?_⟩
    · obtain ⟨hne, hnil⟩ := hnul.mpr hhead
      exact h 0 (readLength_eq_some.mpr ⟨hne, Int.le_refl 0, .inl ⟨hnil, rfl⟩⟩)
    · have hne : copied val ≠ [] := by
        intro hnil
        obtain ⟨blanks, sign, ds, heq, -, -, hne, -⟩ := hsigned
        rw [hnil] at heq
        exact hne (List.append_eq_nil_iff.mp (List.append_eq_nil_iff.mp heq.symm).2).2
      obtain ⟨n, rfl⟩ := Int.eq_ofNat_of_zero_le hv
      exact h n (readLength_eq_some.mpr ⟨hne, hv, .inr hsigned⟩)
  · rintro ⟨hhead, hsigned⟩ v hv
    obtain ⟨hne, hpos, ⟨hnil, -⟩ | hv⟩ := readLength_eq_some.mp hv
    · exact hhead (hnul.mp ⟨hne, hnil⟩)
    · exact hsigned v hpos hv

/-- The value is read for what it is if and only if it is plain. -/
theorem plain_iff (val : List UInt8) :
    (∀ v : Nat, readLength val = some (v : Int) ↔ Decimal (trim val) v) ↔ Plain val := by
  constructor
  · intro h
    refine ⟨fun v hv => (readLength_decimal hv).mp ((h v).mpr hv), fun hnone => ?_⟩
    exact (readLength_none val).mp fun v hv => hnone v ((h v).mp hv)
  · rintro ⟨hsome, hnone⟩ v
    -- a value that is a number, and one that is none
    by_cases hex : ∃ u, Decimal (trim val) u
    · obtain ⟨u, hu⟩ := hex
      rw [(readLength_decimal hu).mpr (hsome u hu), Option.some_inj, Int.ofNat_inj]
      constructor
      · rintro rfl
        exact hu
      · exact fun hv => hu.2.2.1.symm.trans hv.2.2.1
    · have hno : ∀ v, ¬ Decimal (trim val) v := fun v hv => hex ⟨v, hv⟩
      exact iff_of_false ((readLength_none val).mpr (hnone hno) v) (hno v)

/-! ## 5. The header -/

/-- A second field is refused, whatever it holds. -/
theorem parseLines_seen (clen : Int) (lines : List (List UInt8)) :
    parseLines true clen lines =
      (if lines.filterMap lengthValue = [] then 0 else -2, clen) := by
  induction lines with
  | nil => rfl
  | cons line lines ih =>
    rw [parseLines, List.filterMap_cons]
    cases lengthValue line with
    | none => exact ih
    | some val =>
      simp only
      rw [if_pos trivial, if_neg (List.cons_ne_nil _ _)]

theorem parseLines_first (clen : Int) (lines : List (List UInt8)) :
    parseLines false clen lines =
      match lines.filterMap lengthValue with
      | [] => (0, clen)
      | val :: vals =>
        match readLength val with
        | none => (-2, clen)
        | some v => (if vals = [] then 0 else -2, v) := by
  induction lines with
  | nil => rfl
  | cons line lines ih =>
    rw [parseLines, List.filterMap_cons]
    cases lengthValue line with
    | none => exact ih
    | some val =>
      simp only
      rw [if_neg Bool.false_ne_true]
      cases readLength val with
      | none => rfl
      | some v => exact parseLines_seen v lines

theorem parseHead_post (r : List UInt8) :
    parseHead (bytes "POST " ++ r) = parseLines false (-1) ((bytes "POST " ++ r).splitOn nl) := by
  rw [parseHead, List.take_left' (by decide +kernel), if_pos rfl]

/-- What holds of a header with one field. -/
theorem exact_one {p val : List UInt8} (hp : lengthValues p = [val])
    (hrun : parseHead p = match readLength val with
      | none => (-2, -1)
      | some v => (0, v)) :
    Exact p ↔ Plain val := by
  have hgiven (v : Nat) : parseHead p = (0, (v : Int)) ↔ readLength val = some (v : Int) := by
    rw [hrun]
    cases readLength val with
    | none => exact iff_of_false (fun h => by cases h) fun h => by cases h
    | some u => rw [Option.some_inj, Prod.mk.injEq, and_iff_right rfl]
  have hval (v : Nat) : (∃ val, lengthValues p = [val] ∧ Decimal (trim val) v) ↔
      Decimal (trim val) v := by
    rw [hp]
    constructor
    · rintro ⟨val', heq, h⟩
      obtain rfl : val = val' := (List.cons.inj heq).1
      exact h
    · exact fun h => ⟨val, rfl, h⟩
  rw [← plain_iff]
  constructor
  · intro h v
    rw [← hgiven, ← hval]
    exact h.given v
  · intro h
    refine ⟨fun v => by rw [hgiven, hval, h v], fun hnil => ?_, fun _ hno => ?_⟩
    · rw [hp] at hnil
      cases hnil
    -- a number that is read would be the one that is written
    · have hnone : readLength val = none := by
        rw [Option.eq_none_iff_forall_ne_some]
        intro v hv
        obtain ⟨n, rfl⟩ := Int.eq_ofNat_of_zero_le (readLength_eq_some.mp hv).2.1
        exact hno val n hp ((h n).mp hv)
      rw [hrun, hnone]

/-- `parse_head` reads the length of a `POST` that gives one for what it is if and only if the value
is plain; without a field, and with several, it does what it is to do. -/
theorem parseHead_exact_iff (r : List UInt8) :
    Exact (bytes "POST " ++ r) ↔
      ∀ val, lengthValues (bytes "POST " ++ r) = [val] → Plain val := by
  have hrun := parseHead_post r
  rw [parseLines_first] at hrun
  generalize bytes "POST " ++ r = p at hrun ⊢
  have hvalues : (p.splitOn nl).filterMap lengthValue = lengthValues p := rfl
  rw [hvalues] at hrun
  rcases hp : lengthValues p with _ | ⟨val, _ | ⟨val', vals⟩⟩
  · -- no field
    rw [hp] at hrun
    refine iff_of_true ⟨fun v => ?_, fun _ => hrun, fun hne => absurd hp hne⟩ fun val h => ?_
    · rw [hrun, hp]
      refine iff_of_false (fun h => by cases h) ?_
      rintro ⟨val, h, -⟩
      cases h
    · cases h
  · rw [exact_one hp]
    · constructor
      · intro h val' heq
        obtain rfl : val = val' := (List.cons.inj heq).1
        exact h
      · exact fun h => h val rfl
    · rw [hrun, hp]
      simp only
      cases readLength val <;> rfl
  · -- several
    have hret : (parseHead p).1 = -2 := by
      rw [hrun, hp]
      simp only
      cases readLength val <;> rfl
    refine iff_of_true ⟨fun v => ?_, fun h => ?_, fun _ _ => hret⟩ fun val h => ?_
    · rw [hp]
      refine iff_of_false (fun h => ?_) ?_
      · rw [h] at hret
        exact absurd (show (0 : Int) = -2 from hret) (by decide)
      · rintro ⟨val, h, -⟩
        cases h
    · rw [hp] at h
      cases h
    · cases h

/-- Twelve in 32 digits, of which 31 are read. -/
def longTwelve : List UInt8 := List.replicate 30 0x30 ++ bytes "12"

def longTwelveHead : List UInt8 :=
  bytes "/ HTTP/1.1\r\nContent-Length:" ++ (longTwelve ++ bytes "\r\n\r\n")

theorem not_exact_longTwelve : ¬ ∀ r : List UInt8, Exact (bytes "POST " ++ r) := by
  intro h
  have hval : lengthValues (bytes "POST " ++ longTwelveHead) = [longTwelve] := by decide +kernel
  have htrim : trim longTwelve = longTwelve := by decide +kernel
  have hdigits : longTwelve.all isdigit = true := by decide +kernel
  have hdecimal : Decimal (trim longTwelve) 12 := by
    rw [htrim]
    exact ⟨by decide +kernel, List.all_eq_true.mp hdigits, by decide +kernel, by decide⟩
  have hret := ((h longTwelveHead).given 12).mpr ⟨_, hval, hdecimal⟩
  have hcode : parseHead (bytes "POST " ++ longTwelveHead) = (0, 1) := by decide +kernel
  rw [hcode] at hret
  cases hret

end Websh
