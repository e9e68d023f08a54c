import Mathlib.Data.List.TakeWhile
import ZteWifi.Neatvi.Emit
import ZteWifi.Neatvi.Rset
import ZteWifi.Neatvi.Uc

/-!
# Plain strings instead of regular expressions

`rstr_make` compiles no regular expression for a pattern that is a plain string, perhaps at the ends
of the line or of a word; `rstr_find` looks for the string itself.  The expression that the pattern
would have is a sequence of atoms.
-/

open Ascii

namespace Neatvi

/-! ## 1. The functions -/

/-- `struct rstr` of a plain pattern. -/
structure Plain where
  str : List UInt8
  icase : Bool
  lbeg : Bool
  lend : Bool
  wbeg : Bool
  wend : Bool
  deriving DecidableEq, Repr

/-- A byte that ends the loop of `rstr_simple`. -/
def endsPlain (c : UInt8) : Bool := c = 0 || (bytes "\\.*+?|[]\x7b\x7d()$").contains c

/-- `rstr_simple`; `none` is that the pattern is not plain. -/
def rstrSimple (re : List UInt8) (icase : Bool) : Option Plain :=
  let lbeg : Bool := re.getD 0 0 = 0x5E
  let re := if lbeg then re.drop 1 else re
  let wbeg : Bool := re.getD 0 0 = 0x5C ∧ re.getD 1 0 = 0x3C
  let re := if wbeg then re.drop 2 else re
  let str := re.takeWhile fun c => !endsPlain c
  let re := re.dropWhile fun c => !endsPlain c
  let wend : Bool := re.getD 0 0 = 0x5C ∧ re.getD 1 0 = 0x3E
  let re := if wend then re.drop 2 else re
  let lend : Bool := re.getD 0 0 = 0x24
  let re := if lend then re.drop 1 else re
  if re.getD 0 0 = 0 then some ⟨str, icase, lbeg, lend, wbeg, wend⟩ else none

/-- `struct rstr` -/
inductive Rstr
  | plain (p : Plain)
  | regex (rs : Rset)

/-- `rstr_make`; `some none` is `NULL`. -/
def rstrMake (re : List UInt8) (icase : Bool) : Option (Option Rstr) :=
  match rstrSimple re icase with
  | some p => some (some (.plain p))
  | none => (rsetMake [some re] icase).map (·.map .regex)

/-- The comparison of `match_case`. -/
def differ (icase : Bool) (a b : UInt8) : Bool :=
  (!icase && decide (a ≠ b)) || (icase && decide (tolower a ≠ tolower b))

/-- `match_case`: whether the string does not start with `r`. -/
def matchCase (icase : Bool) : List UInt8 → List UInt8 → Bool
  | _, [] => false
  | [], _ :: _ => true
  | a :: s, b :: r =>
    if differ icase a b then true else matchCase icase s r

/-- What the loop of `rstr_find` asks of a place.  At the start of the string an empty pattern for
the end of a word reads `before`, the byte in front of it. -/
def plainAt (p : Plain) (before : UInt8) (s : List UInt8) (r : Nat) : Bool :=
  let len := p.str.length
  !(p.wbeg && decide (0 < r) && (isword (s.drop (r - 1)) || !isword (s.drop r))) &&
  !(p.wend && decide (s.getD (r + len) 0 ≠ 0) &&
    (!isword ((before :: s).drop (r + len)) || isword (s.drop (r + len)))) &&
  !matchCase p.icase (s.drop r) p.str

/-- The loop of `rstr_find` from `r` to `last`. -/
def plainLoop (p : Plain) (before : UInt8) (s : List UInt8) (last : Nat) : Nat → Nat → Option Nat
  | 0, _ => none
  | fuel + 1, r =>
    if r ≤ last then
      if plainAt p before s r then some r else plainLoop p before s last fuel (r + 1)
    else none

/-- `rstr_find` of a plain pattern: the place at which it is found. -/
def plainFind (p : Plain) (before : UInt8) (s : List UInt8) (flg : FindFlg) : Option Nat :=
  if (p.lbeg ∧ flg.notbol) ∨ (p.lend ∧ flg.noteol) then none
  else
    let len := p.str.length
    if s.length < len + 1 then none
    else
      let last := s.length - len - 1
      plainLoop p before s (if p.lbeg then 0 else last) (s.length + 1) (if p.lend then last else 0)

/-- `rstr_find`: the index of what is found and the groups that are set; `some none` is `-1`.
`before` is the byte in front of the string. -/
def rstrFind (rs : Rstr) (before : UInt8) (s : List UInt8) (n : Nat) (flg : FindFlg) (fuel : Nat) :
    Option (Option (Nat × List Regmatch)) :=
  match rs with
  | .regex rs => rsetFind rs s n flg fuel
  | .plain p =>
    some ((plainFind p before s flg).map fun (r : Nat) =>
      (0, if 1 ≤ n then [((r : Int), ((r + p.str.length : Nat) : Int))] else []))

/-! ## 2. The expression of a plain pattern -/

/-- How an atom is written. -/
def Ratom.spell (ra : Ratom) : List UInt8 :=
  match ra.ra with
  | .beg => [0x5E]
  | .wbeg => [0x5C, 0x3C]
  | .wend => [0x5C, 0x3E]
  | .fin => [0x24]
  | _ => ra.s

/-- An atom whose spelling is read as the atom. -/
def Ratom.Spelled (ra : Ratom) : Prop :=
  match ra.ra with
  | .chr => (∀ c ∈ ra.s, endsLiteral c = false) ∧
      ∃ cs : List Char, cs ≠ [] ∧ (∀ c ∈ cs, c ≠ '\x00') ∧ ra.s = encode cs
  | .beg => ra.s = []
  | .wbeg => ra.s = []
  | .wend => ra.s = []
  | .fin => ra.s = []
  | _ => False

/-- No two literals stand behind each other. -/
def Chained : List Ratom → Prop
  | [] => True
  | ra :: ras => ra.Spelled ∧ (ra.ra = .chr → ∀ rb ∈ ras.head?, rb.ra ≠ .chr) ∧ Chained ras

theorem encode_pos {cs : List Char} (hcs : ∀ c ∈ cs, c ≠ '\x00') :
    cs.length ≤ (encode cs).length := by
  have hle := (isChars_encode hcs).length_le
  rwa [List.length_map] at hle

/-- What follows in a sequence that a bracket closes. -/
def spelled (ras : List Ratom) (rest : List UInt8) : List UInt8 :=
  ras.flatMap Ratom.spell ++ 0x29 :: rest

theorem spelled_cons (ra : Ratom) (ras : List Ratom) (rest : List UInt8) :
    spelled (ra :: ras) rest = ra.spell ++ spelled ras rest := by
  rw [spelled, List.flatMap_cons, List.append_assoc, spelled]

theorem Chained.length_le {ras : List Ratom} (h : Chained ras) (rest : List UInt8) :
    ras.length ≤ (spelled ras rest).length := by
  induction ras with
  | nil => exact Nat.zero_le _
  | cons ra ras ih =>
    have hpos : 0 < ra.spell.length := by
      obtain ⟨⟨kind, s⟩, hspelled⟩ : ∃ x : Ratom, x = ra := ⟨ra, rfl⟩
      have h := h.1
      rw [← hspelled] at h ⊢
      cases kind with
      | chr =>
        obtain ⟨-, cs, hne, hcs, rfl⟩ := h
        exact Nat.lt_of_lt_of_le (List.length_pos_iff.mpr hne) (encode_pos hcs)
      | beg => exact Nat.one_pos
      | wbeg => exact Nat.two_pos
      | wend => exact Nat.two_pos
      | fin => exact Nat.one_pos
      | any => exact h.elim
      | brk => exact h.elim
    have htail := ih h.2.2
    rw [spelled_cons, List.length_append, List.length_cons]
    omega

end Neatvi
