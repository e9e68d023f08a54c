import ZteWifi.Neatvi.LineText

/-!
# Searching for plain strings

What `rstr_find` finds of a plain pattern is what the regular expression of the pattern would find.
-/

open Ascii Backtrack Pieces

namespace Neatvi

/-! ## 1. What the tree of a plain pattern matches -/

section
variable (o : List UInt8) (flg : ReFlg)

end

section
variable {o : List UInt8} {flg : ReFlg} {subcnt : Nat}

end

/-! ## 2. Places at which the string is found -/

/-- The place is one at which `rstr_find` may find the pattern. -/
def PlainHit (p : Plain) (before : UInt8) (s : List UInt8) (flg : FindFlg) (r : Nat) : Prop :=
  plainAt p before s r = true ∧ r + p.str.length + 1 ≤ s.length ∧
    (p.lbeg = true → r = 0 ∧ flg.notbol = false) ∧
    (p.lend = true → r + p.str.length + 1 = s.length ∧ flg.noteol = false)

/-- The first of the places, or that there is none. -/
def FirstHit (hit : Nat → Prop) : Option Nat → Prop
  | some r => hit r ∧ ∀ y < r, ¬ hit y
  | none => ∀ y, ¬ hit y

theorem FirstHit.unique {hit : Nat → Prop} {a b : Option Nat} (ha : FirstHit hit a)
    (hb : FirstHit hit b) : a = b := by
  cases a with
  | none =>
    cases b with
    | none => rfl
    | some b => exact absurd hb.1 (ha b)
  | some a =>
    cases b with
    | none => exact absurd ha.1 (hb a)
    | some b =>
      rcases Nat.lt_trichotomy a b with hlt | rfl | hlt
      · exact absurd ha.1 (hb.2 a hlt)
      · rfl
      · exact absurd hb.1 (ha.2 b hlt)

theorem plainLoop_first (p : Plain) (before : UInt8) (s : List UInt8) (last fuel r : Nat)
    (hfuel : last < fuel + r) :
    FirstHit (fun y => r ≤ y ∧ y ≤ last ∧ plainAt p before s y = true)
      (plainLoop p before s last fuel r) := by
  induction fuel generalizing r with
  | zero => exact fun y hy => absurd hy.1 (by omega)
  | succ fuel ih =>
    rw [plainLoop]
    split
    · next hle =>
      split
      · next hat =>
        exact ⟨⟨Nat.le_refl r, hle, hat⟩, fun y hy hhit => absurd hhit.1 (by omega)⟩
      · next hat =>
        have hrest := ih (r + 1) (by omega)
        have hnot : ¬ (r ≤ r ∧ r ≤ last ∧ plainAt p before s r = true) := fun h => hat h.2.2
        cases hloop : plainLoop p before s last fuel (r + 1) with
        | none =>
          rw [hloop] at hrest
          intro y ⟨hy, hlast, hyat⟩
          rcases Nat.lt_or_eq_of_le hy with hlt | rfl
          · exact hrest y ⟨hlt, hlast, hyat⟩
          · exact hat hyat
        | some x =>
          rw [hloop] at hrest
          refine ⟨⟨by have := hrest.1.1; omega, hrest.1.2⟩, fun y hyx ⟨hy, hlast, hyat⟩ => ?_⟩
          rcases Nat.lt_or_eq_of_le hy with hlt | rfl
          · exact hrest.2 y hyx ⟨hlt, hlast, hyat⟩
          · exact hat hyat
    · next hlt => exact fun y hy => absurd hy.2.1 (by omega)

theorem FirstHit.congr {hit hit' : Nat → Prop} (h : ∀ y, hit y ↔ hit' y) {r : Option Nat}
    (hr : FirstHit hit r) : FirstHit hit' r := by
  cases r with
  | none => exact fun y hy => hr y ((h y).mpr hy)
  | some r => exact ⟨(h r).mp hr.1, fun y hlt hy => hr.2 y hlt ((h y).mpr hy)⟩

/-- `rstr_find` finds the first place of a plain pattern. -/
theorem plainFind_first (p : Plain) (before : UInt8) (s : List UInt8) (flg : FindFlg) :
    FirstHit (PlainHit p before s flg) (plainFind p before s flg) := by
  unfold plainFind
  split
  · next hflg =>
    intro y hy
    rcases hflg with ⟨hlbeg, hnotbol⟩ | ⟨hlend, hnoteol⟩
    · rw [(hy.2.2.1 hlbeg).2] at hnotbol
      cases hnotbol
    · rw [(hy.2.2.2 hlend).2] at hnoteol
      cases hnoteol
  · next hflg =>
    simp only
    split
    · next hshort => exact fun y hy => absurd hy.2.1 (by omega)
    · next hshort =>
      have hnotbol (h : p.lbeg = true) : flg.notbol = false := by
        rw [← Bool.not_eq_true]
        exact fun hset => hflg (.inl ⟨h, hset⟩)
      have hnoteol (h : p.lend = true) : flg.noteol = false := by
        rw [← Bool.not_eq_true]
        exact fun hset => hflg (.inr ⟨h, hset⟩)
      refine FirstHit.congr (fun y => ?_) (plainLoop_first p before s _ _ _ (by split <;> omega))
      constructor
      · rintro ⟨hlow, hhigh, hat⟩
        have hlast : y ≤ s.length - p.str.length - 1 := by
          split at hhigh <;> omega
        refine ⟨hat, by omega, fun h => ⟨?_, hnotbol h⟩, fun h => ⟨?_, hnoteol h⟩⟩
        · rw [if_pos h] at hhigh
          omega
        · rw [if_pos h] at hlow
          omega
      · rintro ⟨hat, hroom, hlbeg, hlend⟩
        refine ⟨?_, ?_, hat⟩
        · split
          · next h =>
            have := (hlend h).1
            omega
          · exact Nat.zero_le y
        · split
          · next h =>
            have := (hlbeg h).1
            omega
          · omega

/-! ## 3. The two searches agree -/

section
variable {o : List UInt8} {flg : ReFlg}

end

section
variable {cs : List Char} {flg : ReFlg} {s e : Nat}

end

/-- What is compared with the string byte by byte. -/
theorem matchCase_get {icase : Bool} {a b : List UInt8} (h : matchCase icase a b = false) {i : Nat}
    (hi : i < b.length) : i < a.length ∧ differ icase (a.getD i 0) (b.getD i 0) = false := by
  induction b generalizing a i with
  | nil => exact absurd hi (Nat.not_lt_zero i)
  | cons d b ih =>
    cases a with
    | nil => cases h
    | cons c a =>
      rw [matchCase_cons, Bool.or_eq_false_iff] at h
      cases i with
      | zero => exact ⟨Nat.succ_pos _, h.1⟩
      | succ i =>
        obtain ⟨hlt, hdiffer⟩ := ih h.2 (Nat.lt_of_succ_lt_succ hi)
        exact ⟨Nat.succ_lt_succ hlt, hdiffer⟩

theorem tolower_of_differ {icase : Bool} {a b : UInt8} (h : differ icase a b = false) :
    tolower a = tolower b := by
  rw [differ, Bool.or_eq_false_iff] at h
  cases icase with
  | false => rw [show a = b by simpa using h.1]
  | true => simpa using h.2

theorem eq_nl_of_tolower : ∀ c : UInt8, tolower c = tolower nl → c = nl := by
  decide +kernel

/-- A plain pattern for which the two searches agree: its string is text that is not empty, and
where it begins at a word it begins with a character of one. -/
structure Plain.Sound (p : Plain) (ls : List Char) : Prop where
  str : p.str = encode ls
  ne_nil : ls ≠ []
  text : Lineal ls
  caret : 0x5E ∉ p.str
  word : p.wbeg = true → isword p.str = true

section
variable {p : Plain} {before : UInt8} {ls cs : List Char} {s : Nat}

theorem Plain.Sound.ne_zero (hp : p.Sound ls) : ∀ c ∈ ls, c ≠ '\x00' := fun c hc => (hp.text c hc).1

theorem Plain.Sound.consumes (hp : p.Sound ls) : Ratom.consumes ⟨.chr, p.str⟩ = true := by
  have hne := hp.ne_zero
  show decide (ucDec p.str ≠ 0) = true
  rw [hp.str]
  cases ls with
  | nil => exact absurd rfl hp.ne_nil
  | cons l ls =>
    have hl := hne l List.mem_cons_self
    rw [encode_cons, (ucDec_encode hl _).2]
    exact decide_eq_true (Nat.ne_of_gt (toNat_pos hl))

/-- The string has no newline, so it is found in front of the newline of the line. -/
theorem Plain.Sound.room (hp : p.Sound ls) (hs : s ≤ (encode cs).length)
    (h : matchCase p.icase ((lineOf cs).drop s) p.str = false) :
    s + p.str.length ≤ (encode cs).length := by
  rcases Nat.lt_or_ge (encode cs).length (s + p.str.length) with hlt | hge
  · have hi : (encode cs).length - s < p.str.length := by omega
    obtain ⟨-, hdiffer⟩ := matchCase_get h hi
    have hend : (lineOf cs).getD (s + ((encode cs).length - s)) 0 = nl := by
      rw [show s + ((encode cs).length - s) = (encode cs).length by omega, lineOf_eq,
        List.getD_append_right _ _ _ _ (Nat.le_refl _), Nat.sub_self]
      rfl
    rw [getD_drop, hend, List.getD_eq_getElem _ _ hi] at hdiffer
    have hnl := eq_nl_of_tolower _ (tolower_of_differ hdiffer).symm
    have hmem : nl ∈ encode ls := by
      rw [← hnl, ← hp.str]
      exact List.getElem_mem hi
    exact absurd hmem hp.text.nl_notMem
  · exact hge

end

end Neatvi
