import Mathlib.Data.List.TakeWhile
import ZteWifi.Net.Fields

/-!
# `strtol`

`strtol` with base 10, on bytes behind which there is a NUL: blanks of any kind, a sign and digits,
and a number that a `long` cannot hold is `ERANGE`.
-/

open Ascii Net

namespace Websh

/-- `LONG_MAX` of the target. -/
@[simp] abbrev longMax : Nat := 2147483647

/-- The number that decimal digits stand for. -/
def numeral (ds : List UInt8) : Nat := ds.foldl (fun v c => v * 10 + (c.toNat - 0x30)) 0

/-- What `strtol` leaves: the number, where `endp` points, and whether `errno` is `ERANGE`. -/
structure Strtol where
  val : Int
  endp : Nat
  erange : Bool
  deriving DecidableEq, Repr

/-- What digits behind a sign stand for. -/
def Strtol.ofDigits (sign ds : List UInt8) (endp : Nat) : Strtol :=
  if sign = [minus] then
    if numeral ds ≤ longMax + 1 then ⟨-numeral ds, endp, false⟩ else ⟨-(longMax + 1), endp, true⟩
  else if numeral ds ≤ longMax then ⟨numeral ds, endp, false⟩
  else ⟨longMax, endp, true⟩

/-- The sign that bytes begin with. -/
def signOf (s : List UInt8) : List UInt8 := (s.take 1).filter fun c => c = plus ∨ c = minus

def strtol (s : List UInt8) : Strtol :=
  let blanks := s.takeWhile isspace
  let sign := signOf (s.dropWhile isspace)
  let ds := ((s.dropWhile isspace).drop sign.length).takeWhile isdigit
  -- without a digit nothing is read, not even the blanks
  if ds = [] then ⟨0, 0, false⟩
  else .ofDigits sign ds (blanks.length + sign.length + ds.length)

/-- The bytes are a number of which `strtol` leaves nothing over. -/
def Signed (s : List UInt8) (v : Int) : Prop :=
  ∃ blanks sign ds, s = blanks ++ (sign ++ ds) ∧ (∀ c ∈ blanks, isspace c) ∧
    (sign = [] ∨ sign = [plus] ∨ sign = [minus]) ∧ ds ≠ [] ∧ (∀ c ∈ ds, isdigit c) ∧
    if sign = [minus] then v = -numeral ds ∧ numeral ds ≤ longMax + 1
    else v = numeral ds ∧ numeral ds ≤ longMax

/-! ## 1. The parts of a number -/

theorem isdigit_not_isspace : ∀ c, isdigit c → ¬ isspace c := by decide +kernel

theorem isdigit_not_sign : ∀ c, isdigit c → ¬ (c = plus ∨ c = minus) := by decide +kernel

theorem sign_not_isspace : ∀ c, c = plus ∨ c = minus → ¬ isspace c := by decide +kernel

theorem isdigit_ne_zero : ∀ c, isdigit c → c ≠ 0 := by decide +kernel

theorem isspace_ne_zero : ∀ c, isspace c → c ≠ 0 := by decide +kernel

/-- The first byte, if there is one, is not of the kind. -/
def StartsOff (p : UInt8 → Bool) (s : List UInt8) : Prop := ∀ c ∈ s.head?, ¬ p c

theorem takeWhile_startsOff {p : UInt8 → Bool} {a s : List UInt8} (ha : ∀ c ∈ a, p c)
    (hs : StartsOff p s) : (a ++ s).takeWhile p = a ∧ (a ++ s).dropWhile p = s := by
  rw [List.takeWhile_append_of_pos ha, List.dropWhile_append_of_pos ha]
  cases s with
  | nil => exact ⟨by rw [List.takeWhile_nil, List.append_nil], rfl⟩
  | cons c s =>
    have hc : ¬ p c := hs c rfl
    rw [List.takeWhile_cons_of_neg hc, List.dropWhile_cons_of_neg hc, List.append_nil]
    exact ⟨rfl, rfl⟩

theorem dropWhile_startsOff (p : UInt8 → Bool) (s : List UInt8) : StartsOff p (s.dropWhile p) := by
  intro c hc
  have hhead := List.head?_dropWhile_not p s
  rw [show (s.dropWhile p).head? = some c from hc] at hhead
  exact Bool.eq_false_iff.mp hhead

/-- A string up to its NUL, and what follows. -/
theorem cstr_append (s : List UInt8) : ∃ u, s = cstr s ++ u ∧ StartsOff (· ≠ 0) u :=
  ⟨_, List.takeWhile_append_dropWhile.symm, dropWhile_startsOff _ s⟩

theorem cstr_eq_nil (s : List UInt8) : cstr s = [] ↔ s.getD 0 0 = 0 := by
  cases s with
  | nil => exact iff_of_true rfl rfl
  | cons c s =>
    rw [cstr, List.takeWhile_cons, List.getD_cons_zero]
    by_cases hc : c = 0
    · exact iff_of_true (if_neg (by simpa using hc)) hc
    · rw [if_pos (decide_eq_true hc)]
      exact iff_of_false (List.cons_ne_nil _ _) hc

/-- Where `endp` points behind the parts of a number. -/
theorem getD_parts (blanks sign ds u : List UInt8) :
    (blanks ++ (sign ++ (ds ++ u))).getD (blanks.length + sign.length + ds.length) 0 =
      u.getD 0 0 := by
  have hlen : blanks.length + sign.length + ds.length = (blanks ++ (sign ++ ds)).length := by
    rw [List.length_append, List.length_append, Nat.add_assoc]
  have happend : blanks ++ (sign ++ (ds ++ u)) = (blanks ++ (sign ++ ds)) ++ u := by
    rw [List.append_assoc, List.append_assoc]
  rw [hlen, happend, List.getD_eq_getElem?_getD, List.getElem?_append_right (Nat.le_refl _),
    Nat.sub_self, List.getD_eq_getElem?_getD]

section
variable {blanks sign ds u : List UInt8} (hblanks : ∀ c ∈ blanks, isspace c)
  (hsign : sign = [] ∨ sign = [plus] ∨ sign = [minus]) (hds : ∀ c ∈ ds, isdigit c) (hne : ds ≠ [])
include hsign hds hne

theorem signOf_append : signOf (sign ++ (ds ++ u)) = sign := by
  rcases hsign with rfl | rfl | rfl
  · obtain ⟨d, ds, rfl⟩ := List.exists_cons_of_ne_nil hne
    have hd : ¬ (d = plus ∨ d = minus) := isdigit_not_sign d (hds d List.mem_cons_self)
    simp [signOf, hd]
  · rfl
  · rfl

theorem startsOff_isspace : StartsOff isspace (sign ++ (ds ++ u)) := by
  intro c hc
  rcases hsign with rfl | rfl | rfl
  · obtain ⟨d, ds, rfl⟩ := List.exists_cons_of_ne_nil hne
    obtain rfl : d = c := Option.some.inj hc
    exact isdigit_not_isspace d (hds d List.mem_cons_self)
  · cases hc
    exact sign_not_isspace plus (.inl rfl)
  · cases hc
    exact sign_not_isspace minus (.inr rfl)

include hblanks

/-- What `strtol` makes of blanks, a sign and digits. -/
theorem strtol_parts (hu : StartsOff isdigit u) :
    strtol (blanks ++ (sign ++ (ds ++ u))) =
      .ofDigits sign ds (blanks.length + sign.length + ds.length) := by
  obtain ⟨htake, hdrop⟩ := takeWhile_startsOff hblanks (startsOff_isspace (u := u) hsign hds hne)
  have hdigits := (takeWhile_startsOff hds hu).1
  simp only [strtol, htake, hdrop, signOf_append hsign hds hne, List.drop_left, hdigits]
  rw [if_neg hne]

end

/-- The parts of any bytes. -/
theorem exists_parts (s : List UInt8) : ∃ blanks sign ds u, s = blanks ++ (sign ++ (ds ++ u)) ∧
    (∀ c ∈ blanks, isspace c) ∧ (sign = [] ∨ sign = [plus] ∨ sign = [minus]) ∧
    (∀ c ∈ ds, isdigit c) ∧ StartsOff isdigit u ∧ (ds = [] → strtol s = ⟨0, 0, false⟩) := by
  let t := s.dropWhile isspace
  have hsign : signOf t = [] ∨ signOf t = [plus] ∨ signOf t = [minus] := by
    rcases t with _ | ⟨c, t⟩
    · exact .inl rfl
    · by_cases hplus : c = plus
      · subst hplus
        exact .inr (.inl rfl)
      · by_cases hminus : c = minus
        · subst hminus
          exact .inr (.inr rfl)
        · exact .inl (by simp [signOf, hplus, hminus])
  have hsplit : signOf t ++ t.drop (signOf t).length = t := by
    rcases t with _ | ⟨c, t⟩
    · rfl
    · rw [signOf, List.take_succ_cons, List.take_zero, List.filter_cons]
      split <;> rfl
  let rest := t.drop (signOf t).length
  -- the parts are those that `strtol` itself takes
  refine ⟨s.takeWhile isspace, signOf t, rest.takeWhile isdigit, rest.dropWhile isdigit, ?_,
    fun c hc => List.mem_takeWhile_imp hc, hsign, fun c hc => List.mem_takeWhile_imp hc,
    dropWhile_startsOff isdigit rest, fun hnil => if_pos hnil⟩
  rw [List.takeWhile_append_dropWhile, hsplit, List.takeWhile_append_dropWhile]

/-! ## 2. What `strtol` accepts -/

theorem Strtol.ofDigits_spec (sign ds : List UInt8) (endp : Nat) (v : Int) :
    (Strtol.ofDigits sign ds endp).erange = false ∧ (Strtol.ofDigits sign ds endp).val = v ↔
      if sign = [minus] then v = -numeral ds ∧ numeral ds ≤ longMax + 1
      else v = numeral ds ∧ numeral ds ≤ longMax := by
  rw [Strtol.ofDigits]
  by_cases hminus : sign = [minus]
  · rw [if_pos hminus, if_pos hminus]
    by_cases hle : numeral ds ≤ longMax + 1
    · rw [if_pos hle]
      exact ⟨fun h => ⟨h.2.symm, hle⟩, fun h => ⟨rfl, h.1.symm⟩⟩
    · rw [if_neg hle]
      exact ⟨fun h => (by cases h.1), fun h => absurd h.2 hle⟩
  · rw [if_neg hminus, if_neg hminus]
    by_cases hle : numeral ds ≤ longMax
    · rw [if_pos hle]
      exact ⟨fun h => ⟨h.2.symm, hle⟩, fun h => ⟨rfl, h.1.symm⟩⟩
    · rw [if_neg hle]
      exact ⟨fun h => (by cases h.1), fun h => absurd h.2 hle⟩

theorem Strtol.ofDigits_endp (sign ds : List UInt8) (endp : Nat) :
    (Strtol.ofDigits sign ds endp).endp = endp := by
  rw [Strtol.ofDigits]
  split
  · split <;> rfl
  · split <;> rfl

theorem startsOff_isdigit {u : List UInt8} (h : StartsOff (· ≠ 0) u) : StartsOff isdigit u := by
  intro c hc hdigit
  exact h c hc (decide_eq_true (isdigit_ne_zero c hdigit))

/-- The parts of a number have no NUL among them. -/
theorem cstr_parts {blanks sign ds u : List UInt8} (hblanks : ∀ c ∈ blanks, isspace c)
    (hsign : sign = [] ∨ sign = [plus] ∨ sign = [minus]) (hds : ∀ c ∈ ds, isdigit c) :
    cstr (blanks ++ (sign ++ (ds ++ u))) = blanks ++ (sign ++ (ds ++ cstr u)) := by
  have hne {a : List UInt8} (h : ∀ c ∈ a, c ≠ 0) (b : List UInt8) : cstr (a ++ b) = a ++ cstr b :=
    List.takeWhile_append_of_pos fun c hc => decide_eq_true (h c hc)
  have hsigned : ∀ c ∈ sign, c ≠ 0 := by
    rcases hsign with rfl | rfl | rfl <;> simp
  rw [hne fun c hc => isspace_ne_zero c (hblanks c hc), hne hsigned,
    hne fun c hc => isdigit_ne_zero c (hds c hc)]

/-- `strtol` reads up to the NUL and finds no error where there is nothing before the NUL, and where
there is one number. -/
theorem strtol_spec (s : List UInt8) (v : Int) :
    ((strtol s).erange = false ∧ s.getD (strtol s).endp 0 = 0) ∧ (strtol s).val = v ↔
      cstr s = [] ∧ v = 0 ∨ Signed (cstr s) v := by
  constructor
  · rintro ⟨⟨herange, hend⟩, hval⟩
    obtain ⟨blanks, sign, ds, u, hs, hblanks, hsign, hds, hu, hnil⟩ := exists_parts s
    -- without a digit `endp` is the start, and there must be a NUL there
    by_cases hne : ds = []
    · rw [hnil hne] at hend hval
      exact .inl ⟨(cstr_eq_nil s).mpr hend, hval.symm⟩
    · subst hs
      rw [strtol_parts hblanks hsign hds hne hu] at herange hend hval
      rw [Strtol.ofDigits_endp, getD_parts] at hend
      rw [cstr_parts hblanks hsign hds, (cstr_eq_nil u).mpr hend, List.append_nil]
      exact .inr ⟨blanks, sign, ds, rfl, hblanks, hsign, hne, hds,
        (Strtol.ofDigits_spec _ _ _ v).mp ⟨herange, hval⟩⟩
  · rintro (⟨hnil, rfl⟩ | ⟨blanks, sign, ds, hc, hblanks, hsign, hne, hds, hval⟩)
    · have hzero : s.getD 0 0 = 0 := (cstr_eq_nil s).mp hnil
      have hnone : strtol s = ⟨0, 0, false⟩ := by
        rcases s with _ | ⟨c, s⟩
        · rfl
        · obtain rfl : c = 0 := hzero
          rfl
      rw [hnone]
      exact ⟨⟨rfl, hzero⟩, rfl⟩
    · obtain ⟨u, hs, hu⟩ := cstr_append s
      rw [hc, List.append_assoc, List.append_assoc] at hs
      have hend : cstr u = [] := by
        rcases u with _ | ⟨c, u⟩
        · rfl
        · exact List.takeWhile_cons_of_neg (hu c rfl)
      rw [hs, strtol_parts hblanks hsign hds hne (startsOff_isdigit hu), Strtol.ofDigits_endp,
        getD_parts, and_right_comm]
      exact ⟨(Strtol.ofDigits_spec _ _ _ v).mpr hval, (cstr_eq_nil u).mp hend⟩

end Websh
