import Mathlib.Data.List.Forall2
import ZteWifi.J2t.StreamRefines
import ZteWifi.J2t.Soundness
import ZteWifi.Text.Room

/-!
# Surrogates

A run of `\u` escapes spells 16-bit units.  `parse_unicode_escape` looks at the escape behind a high
surrogate and pushes it back when it is no low one; what it appends is what a decoder of UTF-16 gives
that drops unpaired surrogates.
-/

open Ascii LineBuf

/-! ## 1. A decoder of UTF-16 -/

namespace Utf16

abbrev IsHigh (u : UInt16) : Prop := 0xD800 ≤ u ∧ u ≤ 0xDBFF

abbrev IsLow (u : UInt16) : Prop := 0xDC00 ≤ u ∧ u ≤ 0xDFFF

/-- The code point of a pair. -/
def pair (hi lo : UInt16) : Nat :=
  0x10000 + (hi.toNat - 0xD800) * 0x400 + (lo.toNat - 0xDC00)

/-- The code points of these units, from left to right.  A high surrogate and the low one that
follows it are one code point; every other surrogate is dropped. -/
def decode : List UInt16 → List Nat
  | [] => []
  | [u] => if IsHigh u ∨ IsLow u then [] else [u.toNat]
  | u :: v :: us =>
    if IsHigh u then
      if IsLow v then pair u v :: decode us else decode (v :: us)
    else if IsLow u then decode (v :: us)
    else u.toNat :: decode (v :: us)

theorem isHigh_iff (u : UInt16) : IsHigh u ↔ 0xD800 ≤ u.toNat ∧ u.toNat ≤ 0xDBFF := by
  rw [IsHigh, UInt16.le_iff_toNat_le, UInt16.le_iff_toNat_le]
  rfl

theorem isLow_iff (u : UInt16) : IsLow u ↔ 0xDC00 ≤ u.toNat ∧ u.toNat ≤ 0xDFFF := by
  rw [IsLow, UInt16.le_iff_toNat_le, UInt16.le_iff_toNat_le]
  rfl

theorem pair_valid {hi lo : UInt16} (hhi : IsHigh hi) (hlo : IsLow lo) :
    (pair hi lo).isValidChar := by
  rw [isHigh_iff] at hhi
  rw [isLow_iff] at hlo
  unfold pair Nat.isValidChar
  omega

theorem unit_valid {u : UInt16} (hhi : ¬ IsHigh u) (hlo : ¬ IsLow u) : u.toNat.isValidChar := by
  rw [isHigh_iff] at hhi
  rw [isLow_iff] at hlo
  have hlt := u.toNat_lt
  unfold Nat.isValidChar
  omega

/-- Only characters are decoded. -/
theorem decode_valid (us : List UInt16) : ∀ v ∈ decode us, v.isValidChar := by
  induction us using decode.induct with
  | case1 => exact List.forall_mem_nil _
  | case2 u hdropped =>
    rw [decode, if_pos hdropped]
    exact List.forall_mem_nil _
  | case3 u hkept =>
    rw [decode, if_neg hkept]
    rw [not_or] at hkept
    exact List.forall_mem_singleton.mpr (unit_valid hkept.1 hkept.2)
  | case4 u v us hhi hlo ih =>
    rw [decode, if_pos hhi, if_pos hlo]
    exact List.forall_mem_cons.mpr ⟨pair_valid hhi hlo, ih⟩
  | case5 u v us hhi hlo ih =>
    rw [decode, if_pos hhi, if_neg hlo]
    exact ih
  | case6 u v us hhi hlo ih =>
    rw [decode, if_neg hhi, if_pos hlo]
    exact ih
  | case7 u v us hhi hlo ih =>
    rw [decode, if_neg hhi, if_neg hlo]
    exact List.forall_mem_cons.mpr ⟨unit_valid hhi hlo, ih⟩

end Utf16

namespace J2t

open Utf16

/-! ## 2. Runs of escapes -/

/-- Four hex digits, in either case, that stand for a unit. -/
structure Spells (ds : List UInt8) (u : UInt16) : Prop where
  isHex : ds.length = 4 ∧ ds.all fun c => (hexDigit c).isSome
  value : hexValue ds = u.toNat

/-- The escapes with these digits. -/
def escapes (dss : List (List UInt8)) : List UInt8 := dss.flatMap fun ds => backslash :: 0x75 :: ds

/-- No further escape of a unit follows. -/
def NoEscape (rest : List UInt8) : Prop :=
  ∀ ds s, (ds.length = 4 ∧ ds.all fun c => (hexDigit c).isSome) →
    rest ≠ backslash :: 0x75 :: (ds ++ s)

namespace Trace

theorem escapes_cons (ds : List UInt8) (dss : List (List UInt8)) (rest : List UInt8) :
    escapes (ds :: dss) ++ rest = backslash :: 0x75 :: (ds ++ (escapes dss ++ rest)) := by
  rw [escapes, List.flatMap_cons, List.cons_append, List.cons_append, List.append_assoc]
  rfl

theorem unicodeEscape_unit {ds : List UInt8} {u : UInt16} (h : Spells ds u) (s : List UInt8) :
    unicodeEscape (ds ++ s) =
      if IsHigh u then lowSurrogate u.toNat s
      else if IsLow u then ([], some s)
      else ([.utf8 u.toNat], some s) := by
  have hhi : IsHigh u ↔ isHighSurrogate u.toNat := isHigh_iff u
  have hlo : IsLow u ↔ isLowSurrogate u.toNat := isLow_iff u
  rw [unicodeEscape, hexDigits_escape h.isHex, h.value]
  simp only [hhi, hlo]

/-- What is no escape is left alone behind a high surrogate, unless it is a malformed one: that ends
the string in any case. -/
theorem lowSurrogate_noEscape {rest : List UInt8} (hrest : NoEscape rest) (v : Nat) :
    lowSurrogate v rest = ([], some rest) ∨
      lowSurrogate v rest = ([], none) ∧ stringBody rest = ([], none) := by
  by_cases hu : rest.take 2 = [backslash, 0x75]
  · right
    obtain ⟨s, rfl⟩ : ∃ s, rest = backslash :: 0x75 :: s := by
      refine ⟨rest.drop 2, ?_⟩
      conv_lhs => rw [← List.take_append_drop 2 rest, hu]
      rfl
    cases hdigits : hexDigits 4 0 s with
    | none =>
      constructor
      · rw [lowSurrogate_escape, hdigits]
      · rw [stringBody_unicode, unicodeEscape, hdigits]
    | some x =>
      obtain ⟨w, s'⟩ := x
      -- four hex digits would be a further escape
      obtain ⟨ds, hlen, hhex, -, rfl⟩ := hexDigits_digits hdigits
      exact absurd rfl (hrest ds s' ⟨hlen, hhex⟩)
  · left
    rw [lowSurrogate, if_neg hu]

/-- One escape and what follows it. -/
theorem stringBody_escape {ds : List UInt8} {u : UInt16} (h : Spells ds u) (s : List UInt8) :
    stringBody (backslash :: 0x75 :: (ds ++ s)) =
      if IsHigh u then
        match lowSurrogate u.toNat s with
        | (cs, none) => (cs, none)
        | (cs, some s') => (cs ++ (stringBody s').1, (stringBody s').2)
      else if IsLow u then stringBody s
      else (.utf8 u.toNat :: (stringBody s).1, (stringBody s).2) := by
  rw [stringBody_unicode, unicodeEscape_unit h]
  by_cases hhi : IsHigh u
  · simp only [if_pos hhi]
    rcases lowSurrogate u.toNat s with ⟨cs, _ | s'⟩ <;> rfl
  · simp only [if_neg hhi]
    by_cases hlo : IsLow u
    · simp only [if_pos hlo]
      rfl
    · simp only [if_neg hlo]
      rfl

/-- A run of escapes appends the code points of its units, and leaves the bytes behind it. -/
theorem stringBody_escapes {dss : List (List UInt8)} {us : List UInt16}
    (h : List.Forall₂ Spells dss us) {rest : List UInt8} (hrest : NoEscape rest) :
    stringBody (escapes dss ++ rest) =
      ((decode us).map .utf8 ++ (stringBody rest).1, (stringBody rest).2) := by
  induction us using decode.induct generalizing dss with
  | case1 =>
    rw [List.forall₂_nil_right_iff.mp h]
    rfl
  | case2 u hdropped =>
    obtain ⟨ds, dss, hds, hnil, rfl⟩ := List.forall₂_cons_right_iff.mp h
    rw [List.forall₂_nil_right_iff.mp hnil, escapes_cons, stringBody_escape hds, decode,
      if_pos hdropped]
    show _ = ((stringBody rest).1, (stringBody rest).2)
    by_cases hhi : IsHigh u
    · rw [if_pos hhi]
      show (match lowSurrogate u.toNat rest with
        | (cs, none) => (cs, none)
        | (cs, some s') => (cs ++ (stringBody s').1, (stringBody s').2)) = _
      rcases lowSurrogate_noEscape hrest u.toNat with heq | ⟨heq, hbody⟩
      · rw [heq]
        rfl
      · rw [heq, hbody]
    · rw [if_neg hhi, if_pos (hdropped.resolve_left hhi)]
      rfl
  | case3 u hkept =>
    obtain ⟨ds, dss, hds, hnil, rfl⟩ := List.forall₂_cons_right_iff.mp h
    rw [List.forall₂_nil_right_iff.mp hnil, escapes_cons, stringBody_escape hds, decode,
      if_neg hkept, if_neg (not_or.mp hkept).1, if_neg (not_or.mp hkept).2]
    rfl
  | case4 u v us hhi hlo ih =>
    obtain ⟨ds, dss, hds, htail, rfl⟩ := List.forall₂_cons_right_iff.mp h
    obtain ⟨es, dss, hes, hrun, rfl⟩ := List.forall₂_cons_right_iff.mp htail
    have hlow : isLowSurrogate v.toNat := (isLow_iff v).mp hlo
    -- both escapes are read in one call
    rw [escapes_cons, stringBody_escape hds, if_pos hhi, escapes_cons, lowSurrogate_escape,
      hexDigits_escape hes.isHex, hes.value]
    simp only [if_pos hlow, ih hrun]
    rw [decode, if_pos hhi, if_pos hlo, surrogatePair_eq]
    rfl
  | case5 u v us hhi hlo ih =>
    obtain ⟨ds, dss, hds, htail, rfl⟩ := List.forall₂_cons_right_iff.mp h
    have hnext := ih htail
    obtain ⟨es, dss, hes, -, rfl⟩ := List.forall₂_cons_right_iff.mp htail
    have hlow : ¬ isLowSurrogate v.toNat := fun h => hlo ((isLow_iff v).mpr h)
    -- the escape is read again, and may start a pair itself
    rw [escapes_cons] at hnext
    rw [escapes_cons, stringBody_escape hds, if_pos hhi, escapes_cons, lowSurrogate_escape,
      hexDigits_escape hes.isHex, hes.value]
    simp only [if_neg hlow, hnext]
    rw [decode, if_pos hhi, if_neg hlo]
    rfl
  | case6 u v us hhi hlo ih =>
    obtain ⟨ds, dss, hds, htail, rfl⟩ := List.forall₂_cons_right_iff.mp h
    rw [escapes_cons, stringBody_escape hds, if_neg hhi, if_pos hlo, ih htail, decode, if_neg hhi,
      if_pos hlo]
  | case7 u v us hhi hlo ih =>
    obtain ⟨ds, dss, hds, htail, rfl⟩ := List.forall₂_cons_right_iff.mp h
    rw [escapes_cons, stringBody_escape hds, if_neg hhi, if_neg hlo, ih htail, decode, if_neg hhi,
      if_neg hlo]
    rfl

end Trace

theorem appended_decode (us : List UInt16) : ((decode us).map Cmd.utf8).flatMap Cmd.appended =
    (decode us).flatMap fun v => String.utf8EncodeChar (Char.ofNat v) := by
  rw [List.flatMap_map]
  refine List.flatMap_congr fun v hv => ?_
  have hvalid := decode_valid us v hv
  have hnat : (Char.ofNat v).toNat = v := by
    rw [Char.ofNat, dif_pos hvalid]
    rfl
  show utf8Bytes v = _
  conv_lhs => rw [← hnat, utf8Bytes_eq]

/-! ## 3. The code -/

/-- A run of escapes anywhere in a string appends the characters of its units, and the loop goes on
with the bytes behind it.  There is room in the pushback stack at every call (`Refines.pb`). -/
theorem escapes_decoded (pre : Str) (hpre : ∀ p ds h, pre ≠ p ++ [.unicode ds h])
    {dss : List (List UInt8)} {us : List UInt16} (hrun : List.Forall₂ Spells dss us)
    {rest : List UInt8} (hrest : NoEscape rest) {st : Stream.St}
    (hst : st.rd.content = quote :: (pre.flatMap Item.bytes ++ (escapes dss ++ rest)))
    (hpb : st.rd.pb.length ≤ 6) :
    Stream.Computes Stream.emitJsonString st
        (pre.cmds ++ ((decode us).map .utf8 ++ (Trace.stringBody rest).1),
          (Trace.stringBody rest).2) ∧
      ((decode us).map Cmd.utf8).flatMap Cmd.appended =
        (decode us).flatMap (fun v => String.utf8EncodeChar (Char.ofNat v)) ∧
      ∀ n st', st'.rd.content = rest → st'.rd.pb.length ≤ 6 → rest.length < n →
        Stream.Computes (Stream.emitLoop n) st' (Trace.stringBody rest) := by
  refine ⟨?_, appended_decode us, fun n st' hst' hpb' hn => ?_⟩
  · have hbody := Stream.emitJsonString_computes hst hpb
    -- the run is maximal to the left as well: no escape comes before it
    have hapart : Trace.Apart pre (escapes dss ++ rest) := fun p ds h heq => absurd heq (hpre p ds h)
    rw [(Trace.stringBody_items_append pre hapart).1, Trace.stringBody_escapes hrun hrest] at hbody
    exact hbody
  · have hloop := Stream.emitLoop_computes n st' hpb' (by rw [hst']; exact hn)
    rwa [hst'] at hloop

/-- A high surrogate and a pair, and the end of the string. -/
theorem escapes_decoded_pair :
    let units : List UInt16 := [0xD83D, 0xD83D, 0xDE00]
    let st := Stream.St.start (bytes "\"\\ud83d\\uD83D\\uDe00\"")
    Stream.Computes Stream.emitJsonString st ([.utf8 0x1F600], some []) ∧
      ((decode units).map Cmd.utf8).flatMap Cmd.appended = [0xF0, 0x9F, 0x98, 0x80] := by
  have hrun : List.Forall₂ Spells [bytes "d83d", bytes "D83D", bytes "De00"]
      [0xD83D, 0xD83D, 0xDE00] := by
    refine .cons ?_ (.cons ?_ (.cons ?_ .nil)) <;> exact ⟨by decide +kernel, by decide +kernel⟩
  have hrest : NoEscape [quote] := fun ds s _ heq => absurd (List.cons.inj heq).1 (by decide)
  have hend : Trace.stringBody [quote] = ([], some []) := by
    rw [Trace.stringBody.eq_def]
    rfl
  have hst : (Stream.St.start (bytes "\"\\ud83d\\uD83D\\uDe00\"")).rd.content =
      quote :: (List.flatMap Item.bytes [] ++
        (escapes [bytes "d83d", bytes "D83D", bytes "De00"] ++ [quote])) := by decide +kernel
  have h := escapes_decoded [] (fun p ds h heq => by simp at heq) hrun hrest hst (by decide)
  rw [hend] at h
  exact ⟨h.1, h.2.1.trans (by decide +kernel)⟩

end J2t
