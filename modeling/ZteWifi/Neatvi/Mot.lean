import ZteWifi.Lib.Balance
import ZteWifi.Neatvi.Uc

/-!
# Motions

The motions of the editor walk over the characters of the lines, from one line to the next.  A
buffer is the list of the strings that `lbuf_get` gives, and a place is a row and an offset in
characters.
-/

open Ascii Pieces Balance

namespace Neatvi

/-! ## 1. The functions -/

/-- `lbuf_get`; `none` is `NULL`. -/
def lbufGet (lb : List (List UInt8)) (pos : Int) : Option (List UInt8) :=
  if 0 ≤ pos then lb[pos.toNat]? else none

/-- `lbuf_lnnext`: the next offset in the line; `none` is that it returns 1. -/
def lbufLnnext (lb : List (List UInt8)) (dir r o : Int) : Option Int :=
  let off := o + dir
  match lbufGet lb r with
  | none => none
  | some ln => if off < 0 ∨ ucSlen ln ≤ off then none else some off

def lbufEol (lb : List (List UInt8)) (row : Int) : Int :=
  match lbufGet lb row with
  | none => 0
  | some ln => if ucSlen ln ≠ 0 then ucSlen ln - 1 else 0

/-- `lbuf_next`: whether it fails, and the place that it leaves. -/
def lbufNext (lb : List (List UInt8)) (dir r o : Int) : Bool × Int × Int :=
  let r : Int := if dir < 0 ∧ (lb.length : Int) ≤ r then max 0 ((lb.length : Int) - 1) else r
  match lbufLnnext lb dir r o with
  | some o => (false, r, o)
  | none =>
    if (lbufGet lb (r + dir)).isNone then (true, r, o)
    else (false, r + dir, if 0 < dir then 0 else lbufEol lb (r + dir))

/-- `lbuf_chr`: what the line holds from a character on; `none` is `NULL`. -/
def lbufChr (lb : List (List UInt8)) (r c : Int) : Option (List UInt8) :=
  match lbufGet lb r with
  | none => some []
  | some ln => (ucChr ln c).map fun p => ln.drop p

def pairs : List UInt8 := bytes "()[]\x7b\x7d"

/-- The first loop of `lbuf_pair`: where the line holds a bracket, and which, or its end.  `none` is
that a null pointer is read. -/
def pairSeek (lb : List (List UInt8)) (r : Int) : Nat → Int → Option (Int × UInt8)
  | 0, _ => none
  | fuel + 1, o =>
    match lbufChr lb r o with
    | none => none
    | some s =>
      let pchr := s.getD 0 0
      if pchr ≠ 0 ∧ pairs.contains pchr = false then pairSeek lb r fuel (o + 1) else some (o, pchr)

/-- The second loop of `lbuf_pair`: the place that it sets, or that it returns 1. -/
def pairLoop (lb : List (List UInt8)) (pidx : Nat) :
    Nat → Int → Int → Int → Option (Option (Int × Int))
  | 0, _, _, _ => none
  | fuel + 1, r, o, dep =>
    match lbufNext lb (if pidx &&& 1 ≠ 0 then -1 else 1) r o with
    | (true, _, _) => some none
    | (false, r, o) =>
      match lbufChr lb r o with
      | none => none
      | some s =>
        let c := s.getD 0 0
        let dep := if c = pairs.getD (pidx ^^^ 1) 0 then dep - 1 else dep
        let dep := if c = pairs.getD pidx 0 then dep + 1 else dep
        if dep = 0 then some (some (r, o)) else pairLoop lb pidx fuel r o dep

/-- `lbuf_pair`: the place that it sets, or that it returns 1. -/
def lbufPair (lb : List (List UInt8)) (row off : Int) : Option (Option (Int × Int)) :=
  match pairSeek lb row (lb.flatten.length + 2) off with
  | none => none
  | some (o, pchr) =>
    if pchr = 0 then some none
    else pairLoop lb (pairs.idxOf pchr) (lb.flatten.length + 1) row o 1

/-! ## 2. Places -/

/-- The characters of the lines. -/
def charsOf (lb : List (List UInt8)) : List (List (List UInt8)) := lb.map ucSplit

/-- The lines of a buffer have at least their newline, and they are strings. -/
def Strings (lb : List (List UInt8)) : Prop := ∀ ln ∈ lb, ln ≠ [] ∧ ∀ b ∈ ln, b ≠ 0

instance (lb : List (List UInt8)) : Decidable (Strings lb) :=
  inferInstanceAs (Decidable (∀ ln ∈ lb, _ ∧ _))

/-- The first byte at a place, among all characters. -/
def byteAt (lb : List (List UInt8)) (i : Nat) : UInt8 :=
  ((charsOf lb).flatten[i]?.getD []).getD 0 0

section
variable {lb : List (List UInt8)} {r o : Nat}

theorem lbufGet_row (hr : r < lb.length) : lbufGet lb r = some lb[r] := by
  rw [lbufGet, if_pos (Int.natCast_nonneg r), Int.toNat_natCast, List.getElem?_eq_getElem hr]

theorem lbufGet_end (hr : lb.length ≤ r) : lbufGet lb r = none := by
  rw [lbufGet, if_pos (Int.natCast_nonneg r), Int.toNat_natCast, List.getElem?_eq_none hr]

theorem charsOf_length : (charsOf lb).length = lb.length := List.length_map _

theorem charsOf_getElem (hr : r < (charsOf lb).length) (hr' : r < lb.length) :
    (charsOf lb)[r] = ucSplit lb[r] := List.getElem_map _

/-- What the string functions find in a line. -/
theorem Strings.line (h : Strings lb) (hr : r < lb.length) :
    IsChars (ucSplit lb[r]) ∧ (ucSplit lb[r]).flatten = lb[r] :=
  isChars_ucSplit (h _ (List.getElem_mem hr)).2

theorem Strings.ucSlen (h : Strings lb) (hr : r < lb.length) :
    ucSlen lb[r] = (ucSplit lb[r]).length := by
  obtain ⟨hchars, hflat⟩ := h.line hr
  have hlen := hchars.ucSlen
  rwa [hflat] at hlen

theorem Strings.pos (h : Strings lb) (hr : r < lb.length) : 0 < (ucSplit lb[r]).length := by
  apply List.length_pos_iff.mpr
  intro hnil
  have hflat := (h.line hr).2
  rw [hnil] at hflat
  exact (h _ (List.getElem_mem hr)).1 hflat.symm

theorem isPlace_iff : IsPlace (charsOf lb) r o ↔ ∃ hr : r < lb.length, o < (ucSplit lb[r]).length := by
  constructor
  · rintro ⟨hr, ho⟩
    have hr' : r < lb.length := by rwa [charsOf_length] at hr
    exact ⟨hr', by rwa [charsOf_getElem hr hr'] at ho⟩
  · rintro ⟨hr', ho⟩
    have hr : r < (charsOf lb).length := by rwa [charsOf_length]
    exact ⟨hr, by rwa [charsOf_getElem hr hr']⟩

theorem start_row_succ (hr : r < lb.length) :
    start (charsOf lb) (r + 1) = start (charsOf lb) r + (ucSplit lb[r]).length := by
  have hr' : r < (charsOf lb).length := by rwa [charsOf_length]
  rw [start_succ hr', charsOf_getElem hr' hr]

theorem start_past (hr : lb.length ≤ r) :
    start (charsOf lb) r = (charsOf lb).flatten.length := by
  have hmono : start (charsOf lb) (charsOf lb).length ≤ start (charsOf lb) r :=
    start_mono (by rwa [charsOf_length])
  have hle := start_le (charsOf lb) r
  rw [start_length] at hmono
  omega

/-- The next place holds the next character. -/
theorem lbufNext_forward (h : Strings lb) (hp : IsPlace (charsOf lb) r o) :
    (∃ r' o' : Nat, lbufNext lb 1 r o = (false, (r' : Int), (o' : Int)) ∧
      IsPlace (charsOf lb) r' o' ∧
      start (charsOf lb) r' + o' = start (charsOf lb) r + o + 1) ∨
    (lbufNext lb 1 r o).1 = true ∧
      start (charsOf lb) r + o + 1 = (charsOf lb).flatten.length := by
  obtain ⟨hr, ho⟩ := isPlace_iff.mp hp
  have hsucc := start_row_succ hr
  unfold lbufNext lbufLnnext
  simp only [Int.reduceLT, false_and, if_false, lbufGet_row hr, h.ucSlen hr]
  rcases Nat.lt_or_ge (o + 1) (ucSplit lb[r]).length with hlt | hge
  · left
    rw [if_neg (by omega)]
    exact ⟨r, o + 1, rfl, isPlace_iff.mpr ⟨hr, hlt⟩, by omega⟩
  · rw [if_pos (by omega)]
    rcases Nat.lt_or_ge (r + 1) lb.length with hr' | hr'
    · left
      have hget := lbufGet_row hr'
      have hpos := h.pos hr'
      refine ⟨r + 1, 0, ?_, isPlace_iff.mpr ⟨hr', hpos⟩, by omega⟩
      show (if (lbufGet lb ((r + 1 : Nat) : Int)).isNone = true then _ else _) = _
      rw [hget]
      rfl
    · right
      have hget := lbufGet_end hr'
      have hend := start_past hr'
      constructor
      · show (if (lbufGet lb ((r + 1 : Nat) : Int)).isNone = true then (true, (r : Int), (o : Int))
          else _).1 = true
        rw [hget]
        rfl
      · omega

theorem lbufEol_row (h : Strings lb) (hr : r < lb.length) :
    lbufEol lb r = ((ucSplit lb[r]).length - 1 : Nat) := by
  have hpos := h.pos hr
  unfold lbufEol
  simp only [lbufGet_row hr, h.ucSlen hr]
  rw [if_pos (by omega)]
  omega

/-- The place before it holds the character before. -/
theorem lbufNext_backward (h : Strings lb) (hp : IsPlace (charsOf lb) r o) :
    (∃ r' o' : Nat, lbufNext lb (-1) r o = (false, (r' : Int), (o' : Int)) ∧
      IsPlace (charsOf lb) r' o' ∧
      start (charsOf lb) r' + o' + 1 = start (charsOf lb) r + o) ∨
    (lbufNext lb (-1) r o).1 = true ∧ start (charsOf lb) r + o = 0 := by
  obtain ⟨hr, ho⟩ := isPlace_iff.mp hp
  unfold lbufNext lbufLnnext
  simp only
  rw [if_neg (by omega)]
  simp only [lbufGet_row hr, h.ucSlen hr]
  rcases o with _ | o
  · rw [if_pos (by omega)]
    rcases r with _ | r
    · right
      exact ⟨rfl, rfl⟩
    · left
      have hr' : r < lb.length := by omega
      have hpos := h.pos hr'
      have hsucc := start_row_succ hr'
      refine ⟨r, (ucSplit lb[r]).length - 1, ?_, isPlace_iff.mpr ⟨hr', by omega⟩, by omega⟩
      have hrow : ((r + 1 : Nat) : Int) + -1 = (r : Nat) := by omega
      rw [hrow, lbufEol_row h hr', lbufGet_row hr']
      rfl
  · left
    have hoff : ((o + 1 : Nat) : Int) + -1 = (o : Nat) := by omega
    rw [hoff, if_neg (by omega)]
    exact ⟨r, o, rfl, isPlace_iff.mpr ⟨hr, by omega⟩, by omega⟩

/-- What `lbuf_chr` points at. -/
theorem lbufChr_place (h : Strings lb) (hp : IsPlace (charsOf lb) r o) :
    ∃ s, lbufChr lb r o = some s ∧ s.getD 0 0 = byteAt lb (start (charsOf lb) r + o) ∧
      s.getD 0 0 ≠ 0 := by
  obtain ⟨hr, ho⟩ := isPlace_iff.mp hp
  obtain ⟨hchars, hflat⟩ := h.line hr
  have hr' : r < (charsOf lb).length := by rwa [charsOf_length]
  have ho' : o < (charsOf lb)[r].length := by rwa [charsOf_getElem hr' hr]
  have hchr : ucChr lb[r] o = some (start (ucSplit lb[r]) o) := by
    have hget := hchars.ucChr o
    rw [hflat] at hget
    rw [hget, if_neg (by omega), if_pos (by omega), Int.toNat_natCast]
  have hdrop : lb[r].drop (start (ucSplit lb[r]) o) =
      (ucSplit lb[r])[o] ++ ((ucSplit lb[r]).drop (o + 1)).flatten := by
    have hcut := drop_start (ucSplit lb[r]) o
    rw [hflat] at hcut
    rw [hcut, ← List.flatten_cons, List.cons_getElem_drop_succ]
  have hbyte : byteAt lb (start (charsOf lb) r + o) = ((ucSplit lb[r])[o]).getD 0 0 := by
    rw [byteAt, getElem?_start hr' ho']
    simp only [charsOf_getElem hr' hr, Option.getD_some]
  have hfirst := (hchars.at ho).2
  rw [hflat, ← Nat.add_zero (start (ucSplit lb[r]) o), ← getD_drop] at hfirst
  refine ⟨lb[r].drop (start (ucSplit lb[r]) o), ?_, ?_, hfirst⟩
  · unfold lbufChr
    simp only [lbufGet_row hr, hchr]
    rfl
  · rw [hbyte, hdrop]
    exact List.getD_append _ _ _ _ (List.length_pos_iff.mpr (hchars.cons_drop ho).2.1)

end

/-! ## 3. Brackets -/

/-- What a character does to the depth of the brackets of a kind. -/
def bracketWeight (kind : Nat) (c : UInt8) : Int :=
  if c = pairs.getD (2 * kind) 0 then 1 else if c = pairs.getD (2 * kind + 1) 0 then -1 else 0

def weights (lb : List (List UInt8)) (kind i : Nat) : Int := bracketWeight kind (byteAt lb i)

/-- Two places hold brackets that belong together. -/
def Joined (lb : List (List UInt8)) (r o r' o' : Nat) : Prop :=
  ∃ kind < 3,
    Paired (weights lb kind) (start (charsOf lb) r + o) (start (charsOf lb) r' + o') ∨
    Paired (weights lb kind) (start (charsOf lb) r' + o') (start (charsOf lb) r + o)

/-- A place of the line holds a bracket, and none before it does from `o` on. -/
def FirstBracket (lb : List (List UInt8)) (r o o' : Nat) : Prop :=
  o ≤ o' ∧ IsPlace (charsOf lb) r o' ∧ byteAt lb (start (charsOf lb) r + o') ∈ pairs ∧
    ∀ x, o ≤ x → x < o' → byteAt lb (start (charsOf lb) r + x) ∉ pairs

theorem bracketWeight_bounds (kind : Nat) (c : UInt8) :
    -1 ≤ bracketWeight kind c ∧ bracketWeight kind c ≤ 1 := by
  unfold bracketWeight
  split
  · decide
  · split <;> decide

/-- A bracket of `pairs` opens or closes its kind. -/
theorem pairs_kind : ∀ c ∈ pairs, ∃ kind < 3,
    (pairs.idxOf c = 2 * kind ∧ bracketWeight kind c = 1) ∨
    (pairs.idxOf c = 2 * kind + 1 ∧ bracketWeight kind c = -1) := by
  decide +kernel

theorem opening_iff : ∀ kind < 3, ∀ c, bracketWeight kind c = 1 →
    c ∈ pairs ∧ pairs.idxOf c = 2 * kind := by
  decide +kernel

theorem closing_iff : ∀ kind < 3, ∀ c, bracketWeight kind c = -1 →
    c ∈ pairs ∧ pairs.idxOf c = 2 * kind + 1 := by
  decide +kernel

theorem pairs_flip : ∀ kind < 3, (2 * kind) &&& 1 = 0 ∧ (2 * kind) ^^^ 1 = 2 * kind + 1 ∧
    (2 * kind + 1) &&& 1 ≠ 0 ∧ (2 * kind + 1) ^^^ 1 = 2 * kind ∧
    pairs.getD (2 * kind) 0 ≠ pairs.getD (2 * kind + 1) 0 := by
  decide

theorem zero_notMem_pairs : (0 : UInt8) ∉ pairs := by decide

section
variable {lb : List (List UInt8)} {r o kind p : Nat}

/-- A round of the loop at an opening bracket. -/
theorem dep_forward (hk : kind < 3) (c : UInt8) (dep : Int) :
    (if c = pairs.getD (2 * kind) 0 then
        (if c = pairs.getD (2 * kind ^^^ 1) 0 then dep - 1 else dep) + 1
      else if c = pairs.getD (2 * kind ^^^ 1) 0 then dep - 1 else dep) =
      dep + bracketWeight kind c := by
  obtain ⟨-, hflip, -, -, hne⟩ := pairs_flip kind hk
  rw [hflip]
  unfold bracketWeight
  split
  · next hc =>
    rw [if_neg (hc ▸ hne)]
  · split <;> omega

theorem dep_backward (hk : kind < 3) (c : UInt8) (dep : Int) :
    (if c = pairs.getD (2 * kind + 1) 0 then
        (if c = pairs.getD ((2 * kind + 1) ^^^ 1) 0 then dep - 1 else dep) + 1
      else if c = pairs.getD ((2 * kind + 1) ^^^ 1) 0 then dep - 1 else dep) =
      dep - bracketWeight kind c := by
  obtain ⟨-, -, -, hflip, hne⟩ := pairs_flip kind hk
  rw [hflip]
  unfold bracketWeight
  split
  · next hc =>
    rw [if_neg (hc ▸ hne.symm), if_neg (hc ▸ hne.symm)]
    omega
  · split <;> omega

/-- From an opening bracket the loop finds the closing one, if there is one. -/
theorem pairLoop_forward (h : Strings lb) (hk : kind < 3) (fuel : Nat) {dep : Int}
    (hp : IsPlace (charsOf lb) r o)
    (hin : Inward (weights lb kind) p (start (charsOf lb) r + o + 1))
    (hdep : dep = depth (weights lb kind) (start (charsOf lb) r + o + 1) -
      depth (weights lb kind) p)
    (hfuel : (charsOf lb).flatten.length ≤ fuel + (start (charsOf lb) r + o)) :
    (∃ r' o' : Nat, pairLoop lb (2 * kind) fuel r o dep = some (some ((r' : Int), (o' : Int))) ∧
      IsPlace (charsOf lb) r' o' ∧
      Paired (weights lb kind) p (start (charsOf lb) r' + o')) ∨
    pairLoop lb (2 * kind) fuel r o dep = some none ∧
      ∀ q < (charsOf lb).flatten.length, ¬ Paired (weights lb kind) p q := by
  induction fuel generalizing r o dep with
  | zero =>
    have := hp.lt
    omega
  | succ fuel ih =>
    have hbounds (i : Nat) : -1 ≤ weights lb kind i ∧ weights lb kind i ≤ 1 :=
      bracketWeight_bounds kind (byteAt lb i)
    obtain ⟨hdir, -⟩ := pairs_flip kind hk
    rw [pairLoop, hdir, if_neg (by decide)]
    rcases lbufNext_forward h hp with ⟨r', o', hnext, hp', hidx⟩ | ⟨hfail, hidx⟩
    · obtain ⟨s, hchr, hbyte, -⟩ := lbufChr_place h hp'
      have hstep : depth (weights lb kind) (start (charsOf lb) r' + o' + 1) =
          depth (weights lb kind) (start (charsOf lb) r + o + 1) +
            bracketWeight kind (s.getD 0 0) := by
        rw [hbyte, ← hidx]
        rfl
      rw [← hidx] at hin
      obtain ⟨hpair, hmore⟩ := hin.next hbounds
      simp only [hnext, hchr]
      rw [dep_forward hk]
      split
      · next hzero =>
        exact .inl ⟨r', o', rfl, hp', hpair (by omega)⟩
      · next hzero =>
        exact ih hp' (hmore (by omega)) (by omega) (by omega)
    · right
      have hnext : lbufNext lb 1 r o = (true, (lbufNext lb 1 r o).2) := Prod.ext hfail rfl
      rw [hnext]
      refine ⟨rfl, fun q hq hpair => ?_⟩
      have hdeep := hin.2 (q + 1) (by have := hpair.1; omega) (by omega)
      have heq := hpair.2.1
      omega

/-- From a closing bracket it finds the opening one. -/
theorem pairLoop_backward (h : Strings lb) (hk : kind < 3) (fuel : Nat) {dep : Int} {q : Nat}
    (hp : IsPlace (charsOf lb) r o)
    (hin : Outward (weights lb kind) (start (charsOf lb) r + o) q)
    (hdep : dep = depth (weights lb kind) (start (charsOf lb) r + o) -
      depth (weights lb kind) (q + 1))
    (hfuel : start (charsOf lb) r + o < fuel) :
    (∃ r' o' : Nat, pairLoop lb (2 * kind + 1) fuel r o dep = some (some ((r' : Int), (o' : Int))) ∧
      IsPlace (charsOf lb) r' o' ∧
      Paired (weights lb kind) (start (charsOf lb) r' + o') q) ∨
    pairLoop lb (2 * kind + 1) fuel r o dep = some none ∧
      ∀ p, ¬ Paired (weights lb kind) p q := by
  induction fuel generalizing r o dep with
  | zero => omega
  | succ fuel ih =>
    have hbounds (i : Nat) : -1 ≤ weights lb kind i ∧ weights lb kind i ≤ 1 :=
      bracketWeight_bounds kind (byteAt lb i)
    obtain ⟨-, -, hdir, -⟩ := pairs_flip kind hk
    rw [pairLoop, if_pos hdir]
    rcases lbufNext_backward h hp with ⟨r', o', hnext, hp', hidx⟩ | ⟨hfail, hidx⟩
    · obtain ⟨s, hchr, hbyte, -⟩ := lbufChr_place h hp'
      have hstep : depth (weights lb kind) (start (charsOf lb) r + o) =
          depth (weights lb kind) (start (charsOf lb) r' + o') +
            bracketWeight kind (s.getD 0 0) := by
        rw [hbyte, ← hidx]
        rfl
      rw [← hidx] at hin
      obtain ⟨hpair, hmore⟩ := hin.next hbounds
      simp only [hnext, hchr]
      rw [dep_backward hk]
      split
      · next hzero =>
        exact .inl ⟨r', o', rfl, hp', hpair (by omega)⟩
      · next hzero =>
        exact ih hp' (hmore (by omega)) (by omega) (by omega)
    · right
      have hnext : lbufNext lb (-1) r o = (true, (lbufNext lb (-1) r o).2) := Prod.ext hfail rfl
      rw [hnext]
      refine ⟨rfl, fun p hpair => ?_⟩
      have hdeep := hin.2 p (by omega) (Nat.le_of_lt hpair.1)
      have heq := hpair.2.1
      omega

/-- There are no more characters than bytes. -/
theorem Strings.length_le (h : Strings lb) : (charsOf lb).flatten.length ≤ lb.flatten.length := by
  induction lb with
  | nil => exact Nat.le_refl 0
  | cons ln lb ih =>
    have hln := h ln List.mem_cons_self
    obtain ⟨hchars, hflat⟩ := isChars_ucSplit hln.2
    have hle := hchars.length_le
    rw [hflat] at hle
    have hrest := ih fun x hx => h x (List.mem_cons_of_mem _ hx)
    rw [charsOf, List.map_cons, List.flatten_cons, List.flatten_cons, List.length_append,
      List.length_append]
    exact Nat.add_le_add hle hrest

/-- The loop over a line stops at its first bracket. -/
theorem pairSeek_first (h : Strings lb) {o' : Nat} (hfirst : FirstBracket lb r o o') (fuel : Nat)
    (hfuel : o' - o < fuel) :
    pairSeek lb r fuel o = some ((o' : Int), byteAt lb (start (charsOf lb) r + o')) := by
  obtain ⟨hle, hp, hmem, hno⟩ := hfirst
  induction fuel generalizing o with
  | zero => omega
  | succ fuel ih =>
    obtain ⟨hr, ho⟩ := isPlace_iff.mp hp
    obtain ⟨s, hchr, hbyte, hne⟩ := lbufChr_place h (isPlace_iff.mpr ⟨hr, by omega⟩ :
      IsPlace (charsOf lb) r o)
    rw [pairSeek]
    simp only [hchr]
    rcases Nat.lt_or_eq_of_le hle with hlt | rfl
    · have hnot := hno o (Nat.le_refl o) hlt
      rw [← hbyte] at hnot
      rw [if_pos ⟨hne, by rwa [← Bool.not_eq_true, List.contains_iff_mem]⟩]
      have hrest (x : Nat) (hx : o + 1 ≤ x) : x < o' → _ := hno x (by omega)
      exact @ih (o + 1) (by omega) hlt hrest
    · rw [← hbyte] at hmem ⊢
      rw [if_neg fun hcond => ?_]
      have hcontains := hcond.2
      rw [← Bool.not_eq_true, List.contains_iff_mem] at hcontains
      exact hcontains hmem

theorem pairSeek_none (h : Strings lb) (hr : r < lb.length) (ho : o ≤ (ucSplit lb[r]).length)
    (hno : ∀ x, o ≤ x → x < (ucSplit lb[r]).length → byteAt lb (start (charsOf lb) r + x) ∉ pairs)
    (fuel : Nat) (hfuel : (ucSplit lb[r]).length - o < fuel) :
    ∃ e, pairSeek lb r fuel o = some (e, 0) := by
  induction fuel generalizing o with
  | zero => omega
  | succ fuel ih =>
    rw [pairSeek]
    rcases Nat.lt_or_eq_of_le ho with hlt | rfl
    · obtain ⟨s, hchr, hbyte, hne⟩ := lbufChr_place h (isPlace_iff.mpr ⟨hr, hlt⟩)
      have hnot := hno o (Nat.le_refl o) hlt
      rw [← hbyte] at hnot
      simp only [hchr]
      rw [if_pos ⟨hne, by rwa [← Bool.not_eq_true, List.contains_iff_mem]⟩]
      have hrest (x : Nat) (hx : o + 1 ≤ x) : x < (ucSplit lb[r]).length → _ := hno x (by omega)
      exact @ih (o + 1) hlt hrest (by omega)
    · obtain ⟨hchars, hflat⟩ := h.line hr
      have hchr := hchars.ucChr (ucSplit lb[r]).length
      rw [hflat, if_neg (by omega), if_pos (by omega), Int.toNat_natCast, start_length, hflat] at hchr
      unfold lbufChr
      simp only [lbufGet_row hr, hchr, Option.map_some, List.drop_length]
      exact ⟨_, rfl⟩

/-- From a bracket that has a partner `lbuf_pair` leads to it. -/
theorem lbufPair_joined (h : Strings lb) {r' o' : Nat} (hp : IsPlace (charsOf lb) r o)
    (hp' : IsPlace (charsOf lb) r' o') (hj : Joined lb r o r' o') :
    lbufPair lb r o = some (some ((r' : Int), (o' : Int))) := by
  obtain ⟨kind, hk, hpair⟩ := hj
  have hbounds (i : Nat) : -1 ≤ weights lb kind i ∧ weights lb kind i ≤ 1 :=
    bracketWeight_bounds kind (byteAt lb i)
  have hlen := h.length_le
  have hlt := hp.lt
  have hfirst (hmem : byteAt lb (start (charsOf lb) r + o) ∈ pairs) :=
    pairSeek_first h ⟨Nat.le_refl o, hp, hmem, fun x hx hxo => absurd hx (by omega)⟩
      (lb.flatten.length + 2) (by omega)
  rw [lbufPair]
  rcases hpair with hpair | hpair
  · obtain ⟨hmem, hidx⟩ := opening_iff kind hk _ (hpair.opens hbounds)
    have hne : byteAt lb (start (charsOf lb) r + o) ≠ 0 := fun hzero =>
      zero_notMem_pairs (hzero ▸ hmem)
    simp only [hfirst hmem, if_neg hne, hidx]
    have hopen := hpair.opens hbounds
    rcases pairLoop_forward h hk (lb.flatten.length + 1) hp (.start hopen)
      (show (1 : Int) = _ by rw [depth, hopen]; omega) (by omega) with
      ⟨r'', o'', hloop, hp'', hpair''⟩ | ⟨-, hnone⟩
    · obtain ⟨rfl, rfl⟩ := hp''.inj hp' (hpair''.right_unique hpair)
      exact hloop
    · exact absurd hpair (hnone _ hp'.lt)
  · obtain ⟨hmem, hidx⟩ := closing_iff kind hk _ (hpair.closes hbounds)
    have hne : byteAt lb (start (charsOf lb) r + o) ≠ 0 := fun hzero =>
      zero_notMem_pairs (hzero ▸ hmem)
    simp only [hfirst hmem, if_neg hne, hidx]
    have hclose := hpair.closes hbounds
    rcases pairLoop_backward h hk (lb.flatten.length + 1) hp (.start hclose)
      (show (1 : Int) = _ by rw [depth, hclose]; omega) (by omega) with
      ⟨r'', o'', hloop, hp'', hpair''⟩ | ⟨-, hnone⟩
    · obtain ⟨rfl, rfl⟩ := hp''.inj hp' (hpair''.left_unique hpair)
      exact hloop
    · exact absurd hpair (hnone _)

theorem Joined.symm {r' o' : Nat} (h : Joined lb r o r' o') : Joined lb r' o' r o := by
  obtain ⟨kind, hk, hpair⟩ := h
  exact ⟨kind, hk, hpair.symm⟩

/-- Characters that are no brackets are passed over. -/
theorem lbufPair_first (h : Strings lb) {o' : Nat} (hfirst : FirstBracket lb r o o') :
    lbufPair lb r o = lbufPair lb r o' := by
  obtain ⟨hle, hp, hmem, -⟩ := id hfirst
  have hlt := hp.lt
  have hlen := h.length_le
  have hself : FirstBracket lb r o' o' :=
    ⟨Nat.le_refl o', hp, hmem, fun x hx hxo => absurd hx (by omega)⟩
  unfold lbufPair
  rw [pairSeek_first h hfirst _ (by omega), pairSeek_first h hself _ (by omega)]

/-- At a bracket `lbuf_pair` leads to its partner or fails. -/
theorem lbufPair_bracket (h : Strings lb) (hp : IsPlace (charsOf lb) r o)
    (hmem : byteAt lb (start (charsOf lb) r + o) ∈ pairs) :
    lbufPair lb r o = some none ∨
    ∃ r' o' : Nat, lbufPair lb r o = some (some ((r' : Int), (o' : Int))) ∧
      IsPlace (charsOf lb) r' o' ∧ Joined lb r o r' o' := by
  have hlen := h.length_le
  have hlt := hp.lt
  have hseek := pairSeek_first h
    ⟨Nat.le_refl o, hp, hmem, fun x hx hxo => absurd hx (by omega)⟩ (lb.flatten.length + 2) (by omega)
  have hne : byteAt lb (start (charsOf lb) r + o) ≠ 0 := fun hzero =>
    zero_notMem_pairs (hzero ▸ hmem)
  unfold lbufPair
  simp only [hseek, if_neg hne]
  obtain ⟨kind, hk, ⟨hidx, hopen⟩ | ⟨hidx, hclose⟩⟩ := pairs_kind _ hmem
  · rw [hidx]
    rcases pairLoop_forward h hk (lb.flatten.length + 1) hp (.start hopen)
      (show (1 : Int) = _ by rw [depth, weights, hopen]; omega) (by omega) with
      ⟨r', o', hloop, hp', hpair⟩ | ⟨hloop, -⟩
    · exact .inr ⟨r', o', hloop, hp', kind, hk, .inl hpair⟩
    · exact .inl hloop
  · rw [hidx]
    rcases pairLoop_backward h hk (lb.flatten.length + 1) hp (.start hclose)
      (show (1 : Int) = _ by rw [depth, weights, hclose]; omega) (by omega) with
      ⟨r', o', hloop, hp', hpair⟩ | ⟨hloop, -⟩
    · exact .inr ⟨r', o', hloop, hp', kind, hk, .inr hpair⟩
    · exact .inl hloop

/-- From a place of a line `lbuf_pair` goes to the partner of the line's next bracket, and from there
it comes back to that bracket; it fails if there is no bracket or no partner. -/
theorem lbufPair_partner (h : Strings lb) (hp : IsPlace (charsOf lb) r o) :
    (lbufPair lb r o = some none ∧ ∀ o₁, FirstBracket lb r o o₁ →
      ∀ r' o', IsPlace (charsOf lb) r' o' → ¬ Joined lb r o₁ r' o') ∨
    ∃ o₁ r' o' : Nat, lbufPair lb r o = some (some ((r' : Int), (o' : Int))) ∧
      FirstBracket lb r o o₁ ∧ IsPlace (charsOf lb) r' o' ∧ Joined lb r o₁ r' o' ∧
      lbufPair lb r' o' = some (some ((r : Int), (o₁ : Int))) := by
  obtain ⟨hr, ho⟩ := isPlace_iff.mp hp
  by_cases hbracket : ∃ o₁, FirstBracket lb r o o₁
  · obtain ⟨o₁, hfirst⟩ := hbracket
    have hp₁ := hfirst.2.1
    rw [lbufPair_first h hfirst]
    rcases lbufPair_bracket h hp₁ hfirst.2.2.1 with hnone | ⟨r', o', hpair, hp', hj⟩
    · refine .inl ⟨hnone, fun o₂ hfirst₂ r' o' hp' hj => ?_⟩
      have hpair := lbufPair_joined h hfirst₂.2.1 hp' hj
      rw [← lbufPair_first h hfirst₂, lbufPair_first h hfirst, hnone] at hpair
      cases hpair
    · exact .inr ⟨o₁, r', o', hpair, hfirst, hp', hj, lbufPair_joined h hp' hp₁ hj.symm⟩
  · left
    refine ⟨?_, fun o₁ hfirst => absurd ⟨o₁, hfirst⟩ hbracket⟩
    have hno : ∀ n x, x = o + n → x < (ucSplit lb[r]).length →
        byteAt lb (start (charsOf lb) r + x) ∉ pairs := by
      -- the first one of several would be a first bracket
      intro n
      induction n using Nat.strong_induction_on with
      | h n ih =>
        intro x hx hlt hmem
        refine hbracket ⟨x, by omega, isPlace_iff.mpr ⟨hr, hlt⟩, hmem, fun y hy hyx => ?_⟩
        exact ih (y - o) (by omega) y (by omega) (by omega)
    have hle := (h.line hr).1.length_le
    rw [(h.line hr).2] at hle
    have hrow : lb[r].length ≤ lb.flatten.length :=
      List.Sublist.length_le (List.sublist_flatten_of_mem (List.getElem_mem hr))
    obtain ⟨e, hseek⟩ := pairSeek_none h hr (Nat.le_of_lt ho)
      (fun x hx hlt => hno (x - o) x (by omega) hlt) (lb.flatten.length + 2) (by omega)
    unfold lbufPair
    simp only [hseek]
    rfl

end

/-- Brackets over three lines, in which other ones are nested. -/
theorem lbufPair_partner_lines :
    let lb := [encode "f(a, é[0]\n".toList, encode "  (b)\n".toList, encode "c)\n".toList]
    (lbufPair lb 0 0 = some none ∧ ∀ o₁, FirstBracket lb 0 0 o₁ →
      ∀ r' o', IsPlace (charsOf lb) r' o' → ¬ Joined lb 0 o₁ r' o') ∨
    ∃ o₁ r' o' : Nat, lbufPair lb 0 0 = some (some ((r' : Int), (o' : Int))) ∧
      FirstBracket lb 0 0 o₁ ∧ IsPlace (charsOf lb) r' o' ∧ Joined lb 0 o₁ r' o' ∧
      lbufPair lb r' o' = some (some (0, (o₁ : Int))) :=
  lbufPair_partner (by decide +kernel) (by decide +kernel)

example : lbufPair [encode "f(a, é[0]\n".toList, encode "  (b)\n".toList, encode "c)\n".toList] 0 0 =
    some (some (2, 1)) := by
  decide

end Neatvi
