import Mathlib.Data.List.Basic
import Mathlib.Data.List.Induction
import Mathlib.Logic.Function.Basic
import ZteWifi.Text.Ascii

/-!
# Registers of the editor

What `reg.c` keeps, over whole runs: the registers `1` to `9` are the newest texts with lines, the
others keep what was put last, and a history keeps the newest commands of its prompt.
-/

open Ascii

namespace Neatvi

/-! ## 1. The functions -/

/-- `bufs` and `lnmode`; a text is the bytes before its NUL. -/
structure Regs where
  bufs : UInt8 → Option (List UInt8) := fun _ => none
  lnmode : UInt8 → Int := fun _ => 0

/-- A text and whether it is whole lines. -/
abbrev RegText := List UInt8 × Int

def isalpha (c : UInt8) : Bool := isupper c || islower c

def regGetraw (r : Regs) (c : UInt8) : Option RegText := (r.bufs c).map (·, r.lnmode c)

/-- `reg_get`, but for the registers `;`, `]`, `#` and `^`, which are computed from the line of the
cursor and are read from no buffer. -/
def regGet (r : Regs) (c : UInt8) : Option RegText := regGetraw r (if c = 0x22 then 0 else c)

def regPutraw (r : Regs) (c : UInt8) (s : List UInt8) (ln : Int) : Regs :=
  -- a capital letter goes on with what its letter holds
  let pre := if isupper c then (r.bufs (tolower c)).getD [] else []
  ⟨Function.update r.bufs (tolower c) (some (pre ++ s)), Function.update r.lnmode (tolower c) ln⟩

/-- The register `'0' + i`. -/
def digit (i : Nat) : UInt8 := UInt8.ofNat (0x30 + i)

/-- The loop of `reg_put`, from the register `i` down. -/
def regShift : Nat → Regs → Regs
  | 0, r => r
  | i + 1, r =>
    regShift i <| match regGet r (digit (i + 1)) with
      | some (s, ln) => regPutraw r (digit (i + 2)) s ln
      | none => r

def regPut (r : Regs) (c : UInt8) (s : List UInt8) (ln : Int) : Regs :=
  let r := if (ln ≠ 0 ∨ nl ∈ s) ∧ (c = 0 ∨ isalpha c = true) then
      regPutraw (regShift 8 r) 0x31 s ln
    else r
  regPutraw r c s ln

/-- The first loop of `reg_putln`: `s` is the first line of `old`. -/
def sameLine : List UInt8 → List UInt8 → Bool
  | [], old => old.head? = some nl
  | _ :: _, [] => false
  | c :: s, d :: old => if d = c then sameLine s old else false

/-- The second loop of `reg_putln`: where `end` is after `k` turns; `none` is `NULL`. -/
def oldEnd (old : List UInt8) : Nat → Option Nat
  | 0 => some 0
  | k + 1 =>
    match oldEnd old k with
    | none => none
    | some e =>
      let start := if e = 0 then e else e + 1
      ((old.drop start).idxOf? nl).map (start + ·)

/-- The old lines that are not omitted. -/
def oldLines (xhist : Int) (old : List UInt8) : List UInt8 :=
  if 0 < xhist then
    match oldEnd old (xhist.toNat - 1) with
    | some e => old.take (e + 1)
    | none => old
  else old

/-- `reg_putln`; `none` is a `NULL` line. -/
def regPutln (r : Regs) (xhist : Int) (h : UInt8) (s : Option (List UInt8)) : Regs :=
  match s with
  | none => r
  | some s =>
    let old := (regGet r (0x80 ||| h)).map Prod.fst
    if xhist = 0 ∨ s = [] ∨ s.head? = some nl then r
    -- ignore duplicate lines
    else if old.any (sameLine s) = true then r
    else
      -- add the new line before the old ones that are not omitted
      regPut r (0x80 ||| h)
        (s ++ (if nl ∈ s then [] else [nl]) ++ (old.map (oldLines xhist)).getD []) 1

/-! ## 2. Numbered registers -/

/-- A register of `1` to `9`. -/
def Numbered (c : UInt8) : Prop := 0x31 ≤ c ∧ c ≤ 0x39

instance (c : UInt8) : Decidable (Numbered c) := inferInstanceAs (Decidable (_ ∧ _))

theorem digit_toNat {d : Nat} (hd : d ≤ 9) : (digit d).toNat = 0x30 + d := by
  apply UInt8.toNat_ofNat_of_lt'
  show 0x30 + d < 256
  omega

theorem digit_inj {d e : Nat} (hd : d ≤ 9) (he : e ≤ 9) : digit d = digit e ↔ d = e := by
  constructor
  · intro h
    have hnat := congrArg UInt8.toNat h
    rw [digit_toNat hd, digit_toNat he] at hnat
    omega
  · rintro rfl
    rfl

theorem numbered_digit {d : Nat} (h1 : 1 ≤ d) (h9 : d ≤ 9) : Numbered (digit d) := by
  unfold Numbered
  rw [UInt8.le_iff_toNat_le, UInt8.le_iff_toNat_le, digit_toNat h9]
  exact ⟨by show 0x31 ≤ 0x30 + d; omega, by show 0x30 + d ≤ 0x39; omega⟩

theorem numbered_lower {c : UInt8} (h : Numbered c) : isupper c = false ∧ tolower c = c := by
  have hall : ∀ c : UInt8, Numbered c → isupper c = false ∧ tolower c = c := by
    decide +kernel
  exact hall c h

/-- A lower-case letter is no register of `1` to `9`. -/
theorem not_numbered_tolower {c : UInt8} (h : ¬ Numbered c) : ¬ Numbered (tolower c) := by
  have hall : ∀ c : UInt8, ¬ Numbered c → ¬ Numbered (tolower c) := by
    decide +kernel
  exact hall c h

theorem regGet_numbered {c : UInt8} (h : Numbered c) (r : Regs) : regGet r c = regGetraw r c := by
  have hne : ¬ c = 0x22 := by
    rintro rfl
    revert h
    decide
  rw [regGet, if_neg hne]

/-- What a put leaves in the register that is put to. -/
def putTo (old : Option RegText) (c : UInt8) (s : List UInt8) (ln : Int) : RegText :=
  ((if isupper c then (old.map Prod.fst).getD [] else []) ++ s, ln)

theorem regGetraw_putraw (r : Regs) (c c' : UInt8) (s : List UInt8) (ln : Int) :
    regGetraw (regPutraw r c s ln) c' =
      if c' = tolower c then some (putTo (regGetraw r c') c s ln) else regGetraw r c' := by
  unfold regPutraw regGetraw putTo
  by_cases h : c' = tolower c
  · subst h
    simp only [Function.update_self, Option.map_some, Option.map_map, if_true]
    cases r.bufs (tolower c) <;> rfl
  · simp only [Function.update_of_ne h, if_neg h]

theorem regGetraw_putraw_numbered {c : UInt8} (h : Numbered c) (r : Regs) (c' : UInt8)
    (s : List UInt8) (ln : Int) :
    regGetraw (regPutraw r c s ln) c' = if c' = c then some (s, ln) else regGetraw r c' := by
  obtain ⟨hupper, hlower⟩ := numbered_lower h
  rw [regGetraw_putraw, hlower, putTo, hupper]
  rfl

/-- One turn of the loop. -/
theorem regGetraw_turn (r : Regs) {i : Nat} (hi : i + 2 ≤ 9) (c : UInt8) :
    regGetraw (match regGet r (digit (i + 1)) with
      | some (s, ln) => regPutraw r (digit (i + 2)) s ln
      | none => r) c =
    if c = digit (i + 2) then (regGetraw r (digit (i + 1))).or (regGetraw r c)
    else regGetraw r c := by
  rw [regGet_numbered (numbered_digit (by omega) (by omega))]
  cases regGetraw r (digit (i + 1)) with
  | none => simp only [Option.none_or, ite_self]
  | some t =>
    simp only [Option.some_or]
    exact regGetraw_putraw_numbered (numbered_digit (by omega) hi) r c _ _

theorem regShift_other {c : UInt8} (h : ¬ Numbered c) : ∀ {k : Nat} (r : Regs), k ≤ 8 →
    regGetraw (regShift k r) c = regGetraw r c
  | 0, _, _ => rfl
  | k + 1, r, hk => by
    have hc : c ≠ digit (k + 2) := fun hc =>
      h (hc ▸ numbered_digit (by omega) (by omega))
    rw [regShift, regShift_other h _ (by omega), regGetraw_turn r (by omega), if_neg hc]

/-- The loop moves each register to the next one, where there is a text in it. -/
theorem regShift_digit {d : Nat} (h1 : 1 ≤ d) (h9 : d ≤ 9) : ∀ {k : Nat} (r : Regs), k ≤ 8 →
    regGetraw (regShift k r) (digit d) =
      if 2 ≤ d ∧ d ≤ k + 1 then (regGetraw r (digit (d - 1))).or (regGetraw r (digit d))
      else regGetraw r (digit d)
  | 0, _, _ => by
    rw [if_neg (by omega)]
    rfl
  | k + 1, r, hk => by
    rw [regShift, regShift_digit h1 h9 _ (by omega), regGetraw_turn r (by omega),
      regGetraw_turn r (by omega)]
    simp only [digit_inj h9 (show k + 2 ≤ 9 by omega),
      digit_inj (show d - 1 ≤ 9 by omega) (show k + 2 ≤ 9 by omega)]
    by_cases hlast : d = k + 2
    -- the turn writes the last register of the loop, and no later turn does
    · subst hlast
      rw [if_neg (by omega), if_pos rfl, if_pos (by omega)]
      rfl
    · by_cases hmid : 2 ≤ d ∧ d ≤ k + 1
      · rw [if_pos hmid, if_neg hlast, if_neg (by omega), if_pos (by omega)]
      · rw [if_neg hmid, if_neg hlast, if_neg (by omega)]

/-- The newest texts first, which the registers from `1` on hold. -/
def Ringed (r : Regs) (ring : List RegText) : Prop :=
  ∀ i < 9, regGetraw r (digit (i + 1)) = ring[i]?

theorem Ringed.shift {r : Regs} {ring : List RegText} (h : Ringed r ring) (s : List UInt8)
    (ln : Int) : Ringed (regPutraw (regShift 8 r) 0x31 s ln) ((s, ln) :: ring) := by
  intro i hi
  have hnum : Numbered 0x31 := by decide
  rw [regGetraw_putraw_numbered hnum]
  cases i with
  | zero => rfl
  | succ i =>
    have hne : ¬ digit (i + 1 + 1) = 0x31 := by
      rw [show (0x31 : UInt8) = digit 1 from rfl, digit_inj (by omega) (by omega)]
      omega
    rw [if_neg hne, regShift_digit (by omega) (by omega) r (Nat.le_refl _),
      if_pos (by omega), h (i + 1) hi, Nat.add_sub_cancel, h i (by omega), List.getElem?_cons_succ]
    -- the registers are filled from `1` on, so that none is left out
    by_cases hlen : i < ring.length
    · rw [List.getElem?_eq_getElem hlen, Option.some_or]
    · rw [List.getElem?_eq_none (by omega), List.getElem?_eq_none (by omega)]
      rfl

theorem Ringed.putraw {r : Regs} {ring : List RegText} (h : Ringed r ring) {c : UInt8}
    (hc : ¬ Numbered c) (s : List UInt8) (ln : Int) : Ringed (regPutraw r c s ln) ring := by
  intro i hi
  have hne : digit (i + 1) ≠ tolower c := fun heq =>
    not_numbered_tolower hc (heq ▸ numbered_digit (by omega) (by omega))
  rw [regGetraw_putraw, if_neg hne, h i hi]

/-- A put goes to the ring too. -/
def Shifts (c : UInt8) (s : List UInt8) (ln : Int) : Prop :=
  (ln ≠ 0 ∨ nl ∈ s) ∧ (c = 0 ∨ isalpha c = true)

instance (c : UInt8) (s : List UInt8) (ln : Int) : Decidable (Shifts c s ln) :=
  inferInstanceAs (Decidable (_ ∧ _))

theorem regPut_eq (r : Regs) (c : UInt8) (s : List UInt8) (ln : Int) : regPut r c s ln =
    regPutraw (if Shifts c s ln then regPutraw (regShift 8 r) 0x31 s ln else r) c s ln := rfl

theorem Ringed.put {r : Regs} {ring : List RegText} (h : Ringed r ring) {c : UInt8}
    (hc : ¬ Numbered c) (s : List UInt8) (ln : Int) :
    Ringed (regPut r c s ln) (if Shifts c s ln then (s, ln) :: ring else ring) := by
  rw [regPut_eq]
  split
  · exact (h.shift s ln).putraw hc s ln
  · exact h.putraw hc s ln

/-- The other registers are as if there was no shift. -/
theorem regGetraw_put {c c' : UInt8} (hc' : ¬ Numbered c') (r : Regs) (s : List UInt8) (ln : Int) :
    regGetraw (regPut r c s ln) c' =
      if c' = tolower c then some (putTo (regGetraw r c') c s ln) else regGetraw r c' := by
  have hshift : regGetraw (regPutraw (regShift 8 r) 0x31 s ln) c' = regGetraw r c' := by
    have hne : c' ≠ 0x31 := by
      rintro rfl
      exact hc' (by decide)
    rw [regGetraw_putraw_numbered (by decide), if_neg hne, regShift_other hc' r (Nat.le_refl _)]
  rw [regPut_eq]
  split
  · rw [regGetraw_putraw, hshift]
  · exact regGetraw_putraw r c c' s ln

/-! ## 3. Histories -/

/-- The text of the lines, newest first, in the register of a history. -/
def shown (ls : List (List UInt8)) : List UInt8 := ls.flatMap (· ++ [nl])

/-- A command that is put into a history. -/
def IsCommand (s : List UInt8) : Prop := s ≠ [] ∧ nl ∉ s

theorem sameLine_shown {s l : List UInt8} (hs : nl ∉ s) (hl : nl ∉ l) (rest : List UInt8) :
    sameLine s (l ++ nl :: rest) = true ↔ s = l := by
  -- the two lines go on together up to the first byte in which they differ
  induction s generalizing l with
  | nil =>
    cases l with
    | nil => exact iff_of_true (by simp [sameLine]) rfl
    | cons d l =>
      have hd : d ≠ nl := fun hd => hl (hd ▸ List.mem_cons_self)
      simp [sameLine, hd]
  | cons c s ih =>
    have hc : nl ≠ c := fun hc => hs (hc ▸ List.mem_cons_self)
    cases l with
    | nil => simp [sameLine, hc]
    | cons d l =>
      rw [List.cons_append, sameLine]
      by_cases hdc : d = c
      · subst hdc
        rw [if_pos rfl, ih (fun h => hs (List.mem_cons_of_mem _ h))
          (fun h => hl (List.mem_cons_of_mem _ h)), List.cons_inj_right]
      · rw [if_neg hdc]
        exact iff_of_false Bool.false_ne_true fun heq => hdc (List.cons.inj heq).1.symm

theorem idxOf_shown {l : List UInt8} (hl : nl ∉ l) (rest : List UInt8) :
    (l ++ nl :: rest).idxOf? nl = some l.length := by
  induction l with
  | nil => rfl
  | cons d l ih =>
    have hd : (d == nl) = false := beq_false_of_ne fun hd => hl (hd ▸ List.mem_cons_self)
    rw [List.cons_append, List.idxOf?_cons, hd, ih (fun h => hl (List.mem_cons_of_mem _ h))]
    rfl

theorem shown_append (ls ms : List (List UInt8)) : shown (ls ++ ms) = shown ls ++ shown ms :=
  List.flatMap_append

theorem shown_split (ls : List (List UInt8)) (k : Nat) :
    shown ls = shown (ls.take k) ++ shown (ls.drop k) := by
  rw [← shown_append, List.take_append_drop]

/-- Each turn goes to the end of one more line. -/
theorem oldEnd_shown {ls : List (List UInt8)} (h : ∀ l ∈ ls, IsCommand l) : ∀ k : Nat,
    oldEnd (shown ls) (k + 1) =
      if k < ls.length then some ((shown (ls.take (k + 1))).length - 1) else none := by
  -- the turn that starts behind the first `k` lines
  have hturn : ∀ k, ((shown ls).drop (shown (ls.take k)).length).idxOf? nl =
      (ls[k]?).map List.length := by
    intro k
    rw [shown_split ls k, List.drop_left]
    by_cases hk : k < ls.length
    · rw [List.drop_eq_getElem_cons hk, List.getElem?_eq_getElem hk]
      show (ls[k] ++ [nl] ++ shown (ls.drop (k + 1))).idxOf? nl = _
      rw [List.append_assoc]
      exact idxOf_shown (h _ (List.getElem_mem hk)).2 _
    · rw [List.drop_of_length_le (by omega), List.getElem?_eq_none (by omega)]
      rfl
  have hlength : ∀ k, (hk : k < ls.length) → (shown (ls.take (k + 1))).length =
      (shown (ls.take k)).length + ls[k].length + 1 := by
    intro k hk
    rw [List.take_succ_eq_append_getElem hk, shown_append, List.length_append]
    show _ + (ls[k] ++ [nl] ++ []).length = _
    rw [List.append_nil, List.length_append, Nat.add_assoc]
    rfl
  intro k
  induction k with
  | zero =>
    rw [oldEnd, oldEnd]
    have h0 := hturn 0
    rw [List.take_zero] at h0
    show Option.map (0 + ·) (((shown ls).drop (shown []).length).idxOf? nl) = _
    rw [h0]
    by_cases hk : 0 < ls.length
    · rw [if_pos hk, List.getElem?_eq_getElem hk, hlength 0 hk]
      simp [shown]
    · rw [if_neg hk, List.getElem?_eq_none (by omega)]
      rfl
  | succ k ih =>
    rw [oldEnd, ih]
    by_cases hk : k < ls.length
    -- the line is not empty, so that `end` is behind the start and the next turn starts behind it
    · have hlen := hlength k hk
      have hpos := List.length_pos_iff.mpr (h _ (List.getElem_mem hk)).1
      rw [if_pos hk]
      simp only
      rw [if_neg (by omega), Nat.sub_add_cancel (by omega), hturn (k + 1)]
      by_cases hk' : k + 1 < ls.length
      · rw [if_pos hk', List.getElem?_eq_getElem hk', hlength (k + 1) hk', Option.map_some,
          Option.map_some, Nat.add_sub_cancel]
      · rw [if_neg hk', List.getElem?_eq_none (by omega)]
        rfl
    · rw [if_neg hk, if_neg (by omega)]

theorem oldLines_shown {ls : List (List UInt8)} (h : ∀ l ∈ ls, IsCommand l) {xhist : Int}
    (h2 : 2 ≤ xhist) : oldLines xhist (shown ls) = shown (ls.take (xhist.toNat - 1)) := by
  obtain ⟨k, hk⟩ : ∃ k, xhist.toNat - 1 = k + 1 := ⟨xhist.toNat - 2, by omega⟩
  rw [oldLines, if_pos (by omega), hk, oldEnd_shown h]
  by_cases hlt : k < ls.length
  · rw [if_pos hlt]
    have hpos : 0 < (shown (ls.take (k + 1))).length := by
      rw [List.take_succ_eq_append_getElem hlt, shown_append, List.length_append]
      show 0 < _ + (ls[k] ++ [nl] ++ []).length
      rw [List.append_nil, List.length_append]
      exact Nat.add_pos_right _ (Nat.succ_pos _)
    simp only
    rw [Nat.sub_add_cancel hpos]
    rw [shown_split ls (k + 1), List.take_left]
  · rw [if_neg hlt, List.take_of_length_le (by omega)]

/-- What is in the register of a history with the lines. -/
def historyText (ls : List (List UInt8)) : Option (List UInt8) :=
  if ls = [] then none else some (shown ls)

/-- The history of a prompt behind a command, where `xhist` lines are kept. -/
def remember (xhist : Int) (s : List UInt8) (ls : List (List UInt8)) : List (List UInt8) :=
  if xhist = 0 ∨ s = [] ∨ ls.head? = some s then ls
  else if 0 < xhist then (s :: ls).take xhist.toNat
  else s :: ls

theorem remember_commands {ls : List (List UInt8)} (h : ∀ l ∈ ls, IsCommand l) {s : List UInt8}
    (hs : nl ∉ s) (xhist : Int) : ∀ l ∈ remember xhist s ls, IsCommand l := by
  unfold remember
  split
  · exact h
  · next hnew =>
    have hcons : ∀ l ∈ s :: ls, IsCommand l :=
      List.forall_mem_cons.mpr ⟨⟨fun hnil => hnew (.inr (.inl hnil)), hs⟩, h⟩
    split
    · exact fun l hl => hcons l (List.mem_of_mem_take hl)
    · exact hcons

/-- The registers of the histories are no letters and no digits. -/
theorem history_register (h : UInt8) : ¬ Numbered (0x80 ||| h) ∧ (0x80 ||| h) ≠ 0x22 ∧
    isupper (0x80 ||| h) = false ∧ tolower (0x80 ||| h) = 0x80 ||| h ∧
    ¬ ((0x80 ||| h) = 0 ∨ isalpha (0x80 ||| h) = true) ∧ ¬ (0x80 ||| h) < 0x80 := by
  have hall : ∀ h : UInt8, ¬ Numbered (0x80 ||| h) ∧ (0x80 ||| h) ≠ 0x22 ∧
      isupper (0x80 ||| h) = false ∧ tolower (0x80 ||| h) = 0x80 ||| h ∧
      ¬ ((0x80 ||| h) = 0 ∨ isalpha (0x80 ||| h) = true) ∧ ¬ (0x80 ||| h) < 0x80 := by
    decide +kernel
  exact hall h

theorem history_inj {h h' : UInt8} (hh : h < 0x80) (hh' : h' < 0x80) :
    0x80 ||| h = 0x80 ||| h' ↔ h = h' := by
  have hmask : ∀ h : UInt8, h < 0x80 → (0x80 ||| h) &&& 0x7F = h := by
    decide +kernel
  constructor
  · intro heq
    rw [← hmask h hh, heq, hmask h' hh']
  · rintro rfl
    rfl

theorem tolower_lt {c : UInt8} (h : c < 0x80) : tolower c < 0x80 := by
  have hall : ∀ c : UInt8, c < 0x80 → tolower c < 0x80 := by
    decide +kernel
  exact hall c h

theorem regPut_history (r : Regs) (h : UInt8) (s : List UInt8) (ln : Int) :
    regPut r (0x80 ||| h) s ln = regPutraw r (0x80 ||| h) s ln := by
  obtain ⟨-, -, -, -, hplain, -⟩ := history_register h
  rw [regPut_eq, if_neg fun hshift => hplain hshift.2]

theorem regGetraw_put_history (r : Regs) (h c : UInt8) (s : List UInt8) (ln : Int) :
    regGetraw (regPut r (0x80 ||| h) s ln) c =
      if c = 0x80 ||| h then some (s, ln) else regGetraw r c := by
  obtain ⟨-, -, hupper, hlower, -⟩ := history_register h
  rw [regPut_history, regGetraw_putraw, hlower, putTo, hupper]
  rfl

/-- `reg_putln` leaves the registers, or puts into the one of the history. -/
theorem regPutln_cases (r : Regs) (xhist : Int) (h : UInt8) (s : Option (List UInt8)) :
    regPutln r xhist h s = r ∨ ∃ t, regPutln r xhist h s = regPut r (0x80 ||| h) t 1 := by
  cases s with
  | none => exact .inl rfl
  | some s =>
    unfold regPutln
    simp only
    split
    · exact .inl rfl
    · split
      · exact .inl rfl
      · exact .inr ⟨_, rfl⟩

theorem sameLine_history {ls : List (List UInt8)} (h : ∀ l ∈ ls, IsCommand l) {s : List UInt8}
    (hs : nl ∉ s) : (historyText ls).any (sameLine s) = true ↔ ls.head? = some s := by
  cases ls with
  | nil => exact iff_of_false Bool.false_ne_true (Option.some_ne_none s).symm
  | cons l rest =>
    show sameLine s (l ++ [nl] ++ shown rest) = true ↔ some l = some s
    rw [List.append_assoc, Option.some_inj, eq_comm (a := l)]
    exact sameLine_shown hs (h l List.mem_cons_self).2 _

/-- The old lines that are kept behind a new one. -/
def olderLines (xhist : Int) (ls : List (List UInt8)) : List (List UInt8) :=
  if 0 < xhist then ls.take (xhist.toNat - 1) else ls

theorem oldLines_history {ls : List (List UInt8)} (h : ∀ l ∈ ls, IsCommand l) {xhist : Int}
    (hone : xhist ≠ 1) :
    ((historyText ls).map (oldLines xhist)).getD [] = shown (olderLines xhist ls) := by
  unfold historyText olderLines
  by_cases hnil : ls = []
  · subst hnil
    rw [List.take_nil, ite_self]
    rfl
  · rw [if_neg hnil, Option.map_some, Option.getD_some]
    split
    · exact oldLines_shown h (by omega)
    · next hneg => rw [oldLines, if_neg hneg]

theorem remember_new {xhist : Int} (hzero : xhist ≠ 0) {s : List UInt8}
    (hne : s ≠ []) {ls : List (List UInt8)} (hnew : ls.head? ≠ some s) :
    remember xhist s ls = s :: olderLines xhist ls := by
  rw [remember, if_neg (by rintro (h | h | h); exacts [hzero h, hne h, hnew h]), olderLines]
  split
  · obtain ⟨k, hk⟩ : ∃ k, xhist.toNat = k + 1 := ⟨xhist.toNat - 1, by omega⟩
    rw [hk, List.take_succ_cons, Nat.add_sub_cancel]
  · rfl

theorem regPutln_remember {r : Regs} {h : UInt8} {ls : List (List UInt8)}
    (hls : ∀ l ∈ ls, IsCommand l)
    (hold : (regGetraw r (0x80 ||| h)).map Prod.fst = historyText ls) {xhist : Int}
    (hone : xhist ≠ 1) {s : List UInt8} (hs : nl ∉ s) :
    (regGetraw (regPutln r xhist h (some s)) (0x80 ||| h)).map Prod.fst =
      historyText (remember xhist s ls) := by
  obtain ⟨-, hquote, -⟩ := history_register h
  have hhead : ¬ s.head? = some nl := fun heq => hs (List.mem_of_mem_head? heq)
  unfold regPutln
  simp only
  rw [regGet, if_neg hquote, hold]
  -- nothing is put where there is no history or no command
  by_cases hidle : xhist = 0 ∨ s = []
  · rw [if_pos (or_assoc.mp (.inl hidle)), remember, if_pos (or_assoc.mp (.inl hidle)), hold]
  obtain ⟨hzero, hne⟩ := not_or.mp hidle
  rw [if_neg (by rintro (h0 | h0 | h0); exacts [hzero h0, hne h0, hhead h0])]
  by_cases hnew : ls.head? = some s
  · rw [if_pos ((sameLine_history hls hs).mpr hnew), remember, if_pos (.inr (.inr hnew)), hold]
  · rw [if_neg (mt (sameLine_history hls hs).mp hnew), remember_new hzero hne hnew,
      regGetraw_put_history, if_pos rfl, if_neg hs, oldLines_history hls hone]
    rfl

/-- With one line to keep, the first byte of the old text is kept instead of none of its lines. -/
theorem regPutln_one (r : Regs) (h : UInt8) {s : List UInt8} (hs : IsCommand s)
    {old : List UInt8} (hold : (regGetraw r (0x80 ||| h)).map Prod.fst = some old)
    (hnew : sameLine s old = false) :
    (regGetraw (regPutln r 1 h (some s)) (0x80 ||| h)).map Prod.fst =
      some (s ++ nl :: old.take 1) := by
  obtain ⟨-, hquote, -⟩ := history_register h
  have hhead : ¬ s.head? = some nl := fun heq => hs.2 (List.mem_of_mem_head? heq)
  have hone : ¬ (1 : Int) = 0 := by decide
  unfold regPutln
  simp only
  rw [regGet, if_neg hquote, hold,
    if_neg (by rintro (h0 | h0 | h0); exacts [hone h0, hs.1 h0, hhead h0]),
    if_neg (by rw [Option.any_some, hnew]; exact Bool.false_ne_true), regGetraw_put_history,
    if_pos rfl, if_neg hs.2, List.append_assoc]
  rfl

/-! ## 4. Runs -/

/-- A call of `reg_put` or `reg_putln`. -/
inductive RegCall where
  | put (c : UInt8) (s : List UInt8) (ln : Int)
  | putln (xhist : Int) (h : UInt8) (s : Option (List UInt8))

namespace RegCall

def exec (r : Regs) : RegCall → Regs
  | put c s ln => regPut r c s ln
  | putln xhist h s => regPutln r xhist h s

/-- What the call adds to the numbered registers. -/
def numbered : RegCall → Option RegText
  | put c s ln => if Shifts c s ln then some (s, ln) else none
  | putln _ _ _ => none

/-- What the call makes of the text in the register. -/
def held (c : UInt8) (old : Option RegText) : RegCall → Option RegText
  | put c' s ln => if c = tolower c' then some (putTo old c' s ln) else old
  | putln _ _ _ => old

/-- What the call makes of the history. -/
def remembered (h : UInt8) (ls : List (List UInt8)) : RegCall → List (List UInt8)
  | putln xhist h' (some s) => if h = h' then remember xhist s ls else ls
  | _ => ls

/-- No digit but `0` and no register of a history is put to, and a history does not keep one line
only. -/
def Plain : RegCall → Prop
  | put c _ _ => ¬ Numbered c ∧ c < 0x80
  | putln xhist h s => xhist ≠ 1 ∧ h < 0x80 ∧ ∀ t ∈ s, nl ∉ t

end RegCall

/-- What the registers hold behind the calls. -/
structure Holds (r : Regs) (cs : List RegCall) : Prop where
  ringed : Ringed r (cs.filterMap RegCall.numbered).reverse
  held : ∀ c < 0x80, ¬ Numbered c → regGetraw r c = cs.foldl (RegCall.held c) none
  commands : ∀ h, ∀ l ∈ cs.foldl (RegCall.remembered h) [], IsCommand l
  histories : ∀ h < 0x80, (regGetraw r (0x80 ||| h)).map Prod.fst =
    historyText (cs.foldl (RegCall.remembered h) [])

theorem Holds.init : Holds {} [] where
  ringed _ _ := rfl
  held _ _ _ := rfl
  commands _ _ hl := absurd hl List.not_mem_nil
  histories _ _ := rfl

theorem Holds.put {r : Regs} {cs : List RegCall} (h : Holds r cs) {c : UInt8}
    (hc : ¬ Numbered c) (hlt : c < 0x80) (s : List UInt8) (ln : Int) :
    Holds (regPut r c s ln) (cs ++ [.put c s ln]) where
  ringed := by
    have hput := h.ringed.put hc s ln
    rw [List.filterMap_append, List.reverse_append]
    by_cases hshift : Shifts c s ln
    · simpa [RegCall.numbered, hshift] using hput
    · simpa [RegCall.numbered, hshift] using hput
  held c' hlt' hc' := by
    rw [List.foldl_append, regGetraw_put hc', h.held c' hlt' hc']
    rfl
  commands h' := by
    rw [List.foldl_append]
    exact h.commands h'
  histories h' hh' := by
    -- what is put to is below the registers of the histories
    obtain ⟨hnum, -, -, -, -, hhigh⟩ := history_register h'
    have hne : 0x80 ||| h' ≠ tolower c := fun heq => hhigh (heq ▸ tolower_lt hlt)
    rw [regGetraw_put hnum, if_neg hne, List.foldl_append]
    exact h.histories h' hh'

theorem Holds.putln {r : Regs} {cs : List RegCall} (h : Holds r cs) {xhist : Int}
    (hone : xhist ≠ 1) {h' : UInt8} (hlt : h' < 0x80) {s : Option (List UInt8)}
    (hs : ∀ t ∈ s, nl ∉ t) :
    Holds (regPutln r xhist h' s) (cs ++ [.putln xhist h' s]) where
  ringed := by
    -- no call of `reg_putln` moves the numbered registers
    rw [List.filterMap_append, show [RegCall.putln xhist h' s].filterMap RegCall.numbered = []
      from rfl, List.append_nil]
    rcases regPutln_cases r xhist h' s with heq | ⟨t, heq⟩
    · rw [heq]
      exact h.ringed
    · rw [heq, regPut_history]
      exact h.ringed.putraw (history_register h').1 t 1
  held c hlt' hc := by
    rw [List.foldl_append]
    show _ = cs.foldl (RegCall.held c) none
    rw [← h.held c hlt' hc]
    rcases regPutln_cases r xhist h' s with heq | ⟨t, heq⟩
    · rw [heq]
    · obtain ⟨-, -, -, -, -, hhigh⟩ := history_register h'
      have hne : c ≠ 0x80 ||| h' := by
        rintro rfl
        exact hhigh hlt'
      rw [heq, regGetraw_put_history, if_neg hne]
  commands k := by
    rw [List.foldl_append]
    cases s with
    | none => exact h.commands k
    | some s =>
      show ∀ l ∈ (if k = h' then remember xhist s _ else _), IsCommand l
      split
      · exact remember_commands (h.commands k) (hs s rfl) xhist
      · exact h.commands k
  histories k hk := by
    rw [List.foldl_append]
    cases s with
    | none => exact h.histories k hk
    | some s =>
      show _ = historyText (if k = h' then remember xhist s _ else _)
      by_cases hkh : k = h'
      · subst hkh
        rw [if_pos rfl]
        exact regPutln_remember (h.commands k) (h.histories k hk) hone (hs s rfl)
      · rw [if_neg hkh, ← h.histories k hk]
        rcases regPutln_cases r xhist h' (some s) with heq | ⟨t, heq⟩
        · rw [heq]
        · rw [heq, regGetraw_put_history, if_neg (mt (history_inj hk hlt).mp hkh)]

theorem Holds.run {cs : List RegCall} (hcs : ∀ c ∈ cs, c.Plain) :
    Holds (cs.foldl RegCall.exec {}) cs := by
  induction cs using List.reverseRecOn with
  | nil => exact Holds.init
  | append_singleton cs c ih =>
    have hrun := ih fun c' hc' => hcs c' (List.mem_append_left _ hc')
    have hplain := hcs c (List.mem_append_right _ List.mem_cons_self)
    rw [List.foldl_append]
    cases c with
    | put c s ln => exact hrun.put hplain.1 hplain.2 s ln
    | putln xhist h s => exact hrun.putln hplain.1 hplain.2.1 hplain.2.2

/-- Behind any calls, the registers from `1` to `9` hold the newest texts with lines of the unnamed
register and the letters, the others what was put last, behind what a capital letter goes on with,
and a history the newest commands, each once where it came twice in a row. -/
theorem regs_hold {cs : List RegCall} (hcs : ∀ c ∈ cs, c.Plain) :
    (∀ i < 9, regGetraw (cs.foldl RegCall.exec {}) (digit (i + 1)) =
      (cs.filterMap RegCall.numbered).reverse[i]?) ∧
    (∀ c < 0x80, ¬ Numbered c →
      regGetraw (cs.foldl RegCall.exec {}) c = cs.foldl (RegCall.held c) none) ∧
    ∀ h < 0x80, (regGetraw (cs.foldl RegCall.exec {}) (0x80 ||| h)).map Prod.fst =
      historyText (cs.foldl (RegCall.remembered h) []) :=
  have hrun := Holds.run hcs
  ⟨hrun.ringed, hrun.held, hrun.histories⟩

/-- Two lines of the letter `a`, of which the second one is appended, and two commands of `:` behind
one that is dropped. -/
theorem regs_hold_capital :
    let cs : List RegCall := [.put 0x61 (bytes "x\n") 1, .put 0x41 (bytes "y\n") 1,
      .putln 2 0x3A (some (bytes "w")), .putln 2 0x3A (some (bytes "e")),
      .putln 2 0x3A (some (bytes "q"))]
    let r := cs.foldl RegCall.exec {}
    (∀ c ∈ cs, c.Plain) ∧
      regGetraw r (digit 1) = some (bytes "y\n", 1) ∧
      regGetraw r (digit 2) = some (bytes "x\n", 1) ∧
      regGetraw r 0x61 = some (bytes "x\ny\n", 1) ∧
      (regGetraw r (0x80 ||| 0x3A)).map Prod.fst = some (bytes "q\ne\n") := by
  intro cs r
  have hput (c : UInt8) (hc : ¬ Numbered c ∧ c < 0x80) (s : List UInt8) :
      (RegCall.put c s 1).Plain := hc
  have hputln (s : List UInt8) (hs : nl ∉ s) : (RegCall.putln 2 0x3A (some s)).Plain :=
    ⟨by decide, by decide, fun t ht => Option.mem_some_iff.mp ht ▸ hs⟩
  have hcs : ∀ c ∈ cs, c.Plain := by
    intro c hc
    simp only [cs, List.mem_cons, List.not_mem_nil, or_false] at hc
    rcases hc with rfl | rfl | rfl | rfl | rfl
    · exact hput 0x61 (by decide) _
    · exact hput 0x41 (by decide) _
    all_goals exact hputln _ (by decide)
  obtain ⟨hring, hheld, hhistory⟩ := regs_hold hcs
  refine ⟨hcs, (hring 0 (by decide)).trans ?_, (hring 1 (by decide)).trans ?_,
    (hheld 0x61 (by decide) (by decide)).trans ?_, (hhistory 0x3A (by decide)).trans ?_⟩
  all_goals decide

end Neatvi
