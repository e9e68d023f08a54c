import ZteWifi.Neatvi.Regex

/-!
# Sets of regular expressions

A set is compiled to one expression, in which each member has a group of its own; the group that
takes part in a match tells which member has matched.
-/

open Ascii

namespace Neatvi

/-! ## 1. The functions -/

/-- `re_groupcount` from `s` on: `brk` is whether a bracket is open, and `brk2` what stands for a
bracket in it. -/
def reGroupcountLoop : Nat → List UInt8 → Nat → Bool → UInt8 → Nat
  | 0, _, n, _, _ => n
  | fuel + 1, s, n, brk, brk2 =>
    let c := s.getD 0 0
    let d := s.getD 1 0
    if c = 0 then n
    else if brk = false then
      let n := if c = 0x28 then n + 1 else n
      if c = 0x5C ∧ d ≠ 0 then reGroupcountLoop fuel (s.drop 2) n false brk2
      else if c = 0x5B ∧ d ≠ 0 ∧ s.getD 2 0 ≠ 0 then
        reGroupcountLoop fuel (s.drop ((if d = 0x5E then 2 else 1) + 1)) n true brk2
      else reGroupcountLoop fuel (s.drop 1) n false brk2
    else if brk2 = 0 then
      let brk : Bool := c ≠ 0x5D
      if c = 0x5B ∧ (d = 0x3A ∨ d = 0x2A ∨ d = 0x3D) then
        reGroupcountLoop fuel (s.drop 2) n brk d
      else reGroupcountLoop fuel (s.drop 1) n brk 0
    else if c = brk2 ∧ d = 0x5D then reGroupcountLoop fuel (s.drop 2) n true 0
    else reGroupcountLoop fuel (s.drop 1) n true brk2

def reGroupcount (s : List UInt8) : Nat := reGroupcountLoop s.length s 0 false 0

/-- `struct rset`; `n` is the length of `setgrpcnt`. -/
structure Rset where
  regex : Regex
  grp : List Int
  setgrpcnt : List Nat
  grpcnt : Nat

/-- The loop of `rset_make`: the expression up to here, `grp`, `setgrpcnt` and `grpcnt`. -/
def rsetParts : List (Option (List UInt8)) → List UInt8 × List Int × List Nat × Nat →
    List UInt8 × List Int × List Nat × Nat
  | [], st => st
  | none :: res, (sb, grp, cnts, grpcnt) => rsetParts res (sb, grp ++ [-1], cnts ++ [0], grpcnt)
  | some re :: res, (sb, grp, cnts, grpcnt) =>
    let sb := if 1 < sb.length then sb ++ [0x7C] else sb
    rsetParts res (sb ++ 0x28 :: (re ++ [0x29]), grp ++ [(grpcnt : Int)],
      cnts ++ [reGroupcount re], grpcnt + (1 + reGroupcount re))

/-- `rset_make`; `some none` is `NULL`, and `none` is what it is for `regcomp`. -/
def rsetMake (res : List (Option (List UInt8))) (icase : Bool) : Option (Option Rset) :=
  match rsetParts res ([0x28], [], [], 2) with
  | (sb, grp, cnts, grpcnt) =>
    (regcomp (sb ++ [0x29]) { icase := icase }).map fun re =>
      re.map fun regex => ⟨regex, grp ++ [(grpcnt : Int)], cnts, grpcnt⟩

/-- The flags of a search. -/
structure FindFlg where
  notbol : Bool := false
  noteol : Bool := false

/-- The groups of the last member that takes part. -/
def rsetSet (rs : Rset) (subs : List Regmatch) : Option Nat :=
  (List.range rs.setgrpcnt.length).foldl (fun set i =>
    if 0 ≤ rs.grp.getD i 0 ∧ 0 ≤ (subs.getD (rs.grp.getD i 0).toNat (-1, -1)).1 then some i
    else set) none

/-- `rset_find`: the member that is found and the groups that are set; `some none` is `-1`.  `fuel`
bounds the rounds of an attempt. -/
def rsetFind (rs : Rset) (s : List UInt8) (n : Nat) (flg : FindFlg) (fuel : Nat) :
    Option (Option (Nat × List Regmatch)) :=
  if rs.grpcnt ≤ 2 then some none
  else
    let regexFlg : ReFlg :=
      { newline := true, eolstop := true, notbol := flg.notbol, noteol := flg.noteol }
    (regexec rs.regex s rs.grpcnt regexFlg fuel).map fun (ret, subs) =>
      if ret ≠ 0 then none
      else
        (rsetSet rs subs).map fun set =>
          (set, (List.range n).map fun i =>
            if i < rs.setgrpcnt.getD set 0 + 1 then
              subs.getD ((rs.grp.getD set 0).toNat + i) (-1, -1)
            else (-1, -1))

/-- The loop of `re_read` from `s` on: what is read, and where it stops. -/
def reReadLoop (delim : UInt8) : Nat → List UInt8 → List UInt8 × List UInt8
  | 0, s => ([], s)
  | fuel + 1, s =>
    match s with
    | [] => ([], [])
    | c :: s' =>
      if c = delim then ([], s)
      else if c = 0x5C then
        match s' with
        | [] => ([c], [])
        | d :: s'' =>
          let (sb, r) := reReadLoop delim fuel s''
          (if d ≠ delim then 0x5C :: d :: sb else d :: sb, r)
      else
        let (sb, r) := reReadLoop delim fuel s'
        (c :: sb, r)

/-- `re_read`: the expression in the delimiter at the start, and what is behind it; `none` is
`NULL`. -/
def reRead (src : List UInt8) : Option (List UInt8 × List UInt8) :=
  match src with
  | [] => none
  | delim :: s =>
    let (sb, r) := reReadLoop delim s.length s
    some (sb, r.drop 1)

/-- The set of one expression. -/
theorem rsetMake_one (re : List UInt8) (icase : Bool) :
    rsetMake [some re] icase =
      (regcomp (0x28 :: 0x28 :: (re ++ [0x29, 0x29])) { icase := icase }).map (·.map fun regex =>
        ⟨regex, [2, ((2 + (1 + reGroupcount re) : Nat) : Int)], [reGroupcount re],
          2 + (1 + reGroupcount re)⟩) := by
  unfold rsetMake
  simp only [rsetParts, List.length_singleton, Nat.lt_irrefl, if_false, List.nil_append,
    List.cons_append, List.append_assoc]
  rfl

/-! ## 2. Reading an expression -/

/-- How an expression is written in the delimiter: the delimiter stands behind a backslash, and a
backslash stands before any other byte. -/
inductive Quoted (delim : UInt8) : List UInt8 → List UInt8 → Prop
  | nil : Quoted delim [] []
  | byte {c : UInt8} {e w : List UInt8} (hc : c ≠ 0x5C) (hdelim : c ≠ delim)
      (h : Quoted delim e w) : Quoted delim (c :: e) (c :: w)
  | delim {e w : List UInt8} (h : Quoted delim e w) :
      Quoted delim (delim :: e) (0x5C :: delim :: w)
  | pair {d : UInt8} {e w : List UInt8} (hdelim : d ≠ delim) (h : Quoted delim e w) :
      Quoted delim (0x5C :: d :: e) (0x5C :: d :: w)

/-- The expression ends before the delimiter, or with the text, also where its last byte is a
backslash. -/
inductive Enclosed (delim : UInt8) : List UInt8 → List UInt8 → List UInt8 → Prop
  | closed {e w : List UInt8} (h : Quoted delim e w) (r : List UInt8) :
      Enclosed delim (w ++ delim :: r) e (delim :: r)
  | whole {e w : List UInt8} (h : Quoted delim e w) : Enclosed delim w e []
  | lone {e w : List UInt8} (h : Quoted delim e w) : Enclosed delim (w ++ [0x5C]) (e ++ [0x5C]) []

variable {delim : UInt8}

theorem Enclosed.quoted (e₀ w₀ : List UInt8)
    (hstep : ∀ {e w}, Quoted delim e w → Quoted delim (e₀ ++ e) (w₀ ++ w)) {s e r : List UInt8}
    (h : Enclosed delim s e r) : Enclosed delim (w₀ ++ s) (e₀ ++ e) r := by
  cases h with
  | closed h r =>
    rw [← List.append_assoc]
    exact .closed (hstep h) r
  | whole h => exact .whole (hstep h)
  | lone h =>
    rw [← List.append_assoc, ← List.append_assoc]
    exact .lone (hstep h)

theorem reReadLoop_byte {c : UInt8} (hc : c ≠ 0x5C) (hdelim : c ≠ delim) (fuel : Nat)
    (s : List UInt8) :
    reReadLoop delim (fuel + 1) (c :: s) =
      (c :: (reReadLoop delim fuel s).1, (reReadLoop delim fuel s).2) := by
  rw [reReadLoop.eq_def]
  simp only
  rw [if_neg hdelim, if_neg hc]

theorem reReadLoop_backslash (hdelim : delim ≠ 0x5C) (fuel : Nat) (d : UInt8) (s : List UInt8) :
    reReadLoop delim (fuel + 1) (0x5C :: d :: s) =
      (if d ≠ delim then 0x5C :: d :: (reReadLoop delim fuel s).1
        else d :: (reReadLoop delim fuel s).1, (reReadLoop delim fuel s).2) := by
  rw [reReadLoop.eq_def]
  simp only
  rw [if_neg hdelim.symm, if_pos trivial]

theorem reReadLoop_stop (fuel : Nat) (s : List UInt8) :
    reReadLoop delim (fuel + 1) (delim :: s) = ([], delim :: s) := by
  rw [reReadLoop.eq_def]
  exact if_pos rfl

theorem reReadLoop_lone (hdelim : delim ≠ 0x5C) (fuel : Nat) :
    reReadLoop delim (fuel + 1) [0x5C] = ([0x5C], []) := by
  rw [reReadLoop.eq_def]
  simp only
  rw [if_neg hdelim.symm, if_pos trivial]

theorem reReadLoop_enclosed (hdelim : delim ≠ 0x5C) {fuel : Nat} {s : List UInt8}
    (hfuel : s.length ≤ fuel) :
    Enclosed delim s (reReadLoop delim fuel s).1 (reReadLoop delim fuel s).2 := by
  induction fuel generalizing s with
  | zero =>
    rw [List.eq_nil_of_length_eq_zero (Nat.le_zero.mp hfuel)]
    exact .whole .nil
  | succ fuel ih =>
    cases s with
    | nil => exact .whole .nil
    | cons c s =>
      have hlen : s.length ≤ fuel := Nat.le_of_succ_le_succ hfuel
      -- the cases of a turn are those of the grammar
      by_cases hend : c = delim
      · subst hend
        rw [reReadLoop_stop]
        exact .closed .nil s
      by_cases hc : c = 0x5C
      · subst hc
        cases s with
        | nil =>
          -- the text ends behind the backslash, which is kept
          rw [reReadLoop_lone hdelim]
          exact .lone .nil
        | cons d s =>
          have hrec := ih (s := s) (Nat.le_of_succ_le hlen)
          rw [reReadLoop_backslash hdelim]
          by_cases hd : d = delim
          -- the backslash of a delimiter is left out, any other one is kept
          · subst hd
            rw [if_neg (not_not_intro rfl)]
            exact Enclosed.quoted [d] [0x5C, d] .delim hrec
          · rw [if_pos hd]
            exact Enclosed.quoted [0x5C, d] [0x5C, d] (.pair hd) hrec
      · rw [reReadLoop_byte hc hend]
        exact Enclosed.quoted [c] [c] (.byte hc hend) (ih hlen)

/-- What the loop does with a quoted expression and what is behind it. -/
theorem Quoted.reads (hdelim : delim ≠ 0x5C) {t e' r : List UInt8}
    (ht : ∀ fuel, t.length ≤ fuel → reReadLoop delim fuel t = (e', r)) {e w : List UInt8}
    (h : Quoted delim e w) : ∀ {fuel : Nat}, (w ++ t).length ≤ fuel →
    reReadLoop delim fuel (w ++ t) = (e ++ e', r) := by
  induction h with
  | nil => exact fun hfuel => ht _ hfuel
  | byte hc hd h ih =>
    intro fuel hfuel
    obtain ⟨fuel, rfl⟩ := Nat.exists_eq_add_one_of_ne_zero (Nat.ne_zero_of_lt hfuel)
    rw [List.cons_append, reReadLoop_byte hc hd, ih (Nat.le_of_succ_le_succ hfuel)]
    rfl
  | delim h ih =>
    intro fuel hfuel
    obtain ⟨fuel, rfl⟩ := Nat.exists_eq_add_one_of_ne_zero (Nat.ne_zero_of_lt hfuel)
    rw [List.cons_append, List.cons_append, reReadLoop_backslash hdelim,
      if_neg (not_not_intro rfl), ih (Nat.le_of_succ_le (Nat.le_of_succ_le_succ hfuel))]
    rfl
  | pair hd h ih =>
    intro fuel hfuel
    obtain ⟨fuel, rfl⟩ := Nat.exists_eq_add_one_of_ne_zero (Nat.ne_zero_of_lt hfuel)
    rw [List.cons_append, List.cons_append, reReadLoop_backslash hdelim, if_pos hd,
      ih (Nat.le_of_succ_le (Nat.le_of_succ_le_succ hfuel))]
    rfl

theorem Enclosed.reads (hdelim : delim ≠ 0x5C) {s e r : List UInt8} (h : Enclosed delim s e r) :
    reReadLoop delim s.length s = (e, r) := by
  cases h with
  | @closed e w h r =>
    have hstop : ∀ fuel, (delim :: r).length ≤ fuel →
        reReadLoop delim fuel (delim :: r) = ([], delim :: r) := by
      intro fuel hfuel
      obtain ⟨fuel, rfl⟩ := Nat.exists_eq_add_one_of_ne_zero (Nat.ne_zero_of_lt hfuel)
      exact reReadLoop_stop fuel r
    rw [h.reads hdelim hstop (Nat.le_refl _), List.append_nil]
  | whole h =>
    have hstop : ∀ fuel, ([] : List UInt8).length ≤ fuel → reReadLoop delim fuel [] = ([], []) := by
      intro fuel _
      cases fuel <;> rfl
    have hread := h.reads hdelim hstop (Nat.le_refl _)
    rwa [List.append_nil, List.append_nil] at hread
  | lone h =>
    have hstop : ∀ fuel, ([0x5C] : List UInt8).length ≤ fuel →
        reReadLoop delim fuel [0x5C] = ([0x5C], []) := by
      intro fuel hfuel
      obtain ⟨fuel, rfl⟩ := Nat.exists_eq_add_one_of_ne_zero (Nat.ne_zero_of_lt hfuel)
      exact reReadLoop_lone hdelim fuel
    exact h.reads hdelim hstop (Nat.le_refl _)

/-- `re_read` reads exactly what encloses an expression, and stops behind its delimiter. -/
theorem reRead_iff (hdelim : delim ≠ 0x5C) (s e r : List UInt8) :
    reRead (delim :: s) = some (e, r) ↔ ∃ r', Enclosed delim s e r' ∧ r = r'.drop 1 := by
  constructor
  · intro h
    obtain ⟨rfl, rfl⟩ := Prod.mk.inj (Option.some.inj h)
    exact ⟨_, reReadLoop_enclosed hdelim (Nat.le_refl _), rfl⟩
  · rintro ⟨r', h, rfl⟩
    unfold reRead
    simp only
    rw [h.reads hdelim]

/-- The delimiter in the expression is written behind a backslash. -/
theorem reRead_iff_slash : (0x2F : UInt8) ≠ 0x5C ∧
    reRead (bytes "/a\\/\\.b/g") = some (bytes "a/\\.b", bytes "g") := by
  have hdelim : (0x2F : UInt8) ≠ 0x5C := by decide
  have hquoted : Quoted 0x2F (bytes "a/\\.b") (bytes "a\\/\\.b") :=
    .byte (by decide) (by decide) (.delim (.pair (by decide) (.byte (by decide) (by decide) .nil)))
  exact ⟨hdelim, (reRead_iff hdelim _ _ _).mpr ⟨_, .closed hquoted (bytes "g"), rfl⟩⟩

end Neatvi
