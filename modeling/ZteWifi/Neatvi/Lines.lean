import ZteWifi.Neatvi.Lbuf

/-!
# Text as lines

The lines that `lbuf_replace` cuts a text into, and back: how the text of a range of lines is cut
again.
-/

open Ascii

namespace Neatvi

/-! ## 1. Cutting a text -/

/-- The lines of a text. -/
def linesOf (s : List UInt8) : List Line := newLines (linecount s) s

theorem linelength_nl {b : List UInt8} (hb : nl ∉ b) (s : List UInt8) :
    linelength (b ++ nl :: s) = b.length + 1 := by
  have hfind : (b ++ nl :: s).findIdx? (fun c => c = nl) = some b.length := by
    rw [List.findIdx?_append, List.findIdx?_eq_none_iff.mpr]
    · rw [List.findIdx?_cons, if_pos (decide_eq_true rfl)]
      exact congrArg some (Nat.zero_add _)
    · intro c hc
      exact decide_eq_false fun heq => hb (heq ▸ hc)
  rw [linelength, hfind]

theorem linelength_last {b : List UInt8} (hb : nl ∉ b) : linelength b = b.length := by
  have hfind : b.findIdx? (fun c => c = nl) = none := by
    rw [List.findIdx?_eq_none_iff]
    intro c hc
    exact decide_eq_false fun heq => hb (heq ▸ hc)
  rw [linelength, hfind]

/-- Texts are made of lines with their newlines and at most one without it at the end. -/
theorem text_induction {motive : List UInt8 → Prop} (nil : motive [])
    (full : ∀ b s, nl ∉ b → motive s → motive (b ++ nl :: s))
    (last : ∀ b, nl ∉ b → b ≠ [] → motive b) (s : List UInt8) : motive s := by
  by_cases hmem : nl ∈ s
  · obtain ⟨b, s', rfl, hb⟩ := List.eq_append_cons_of_mem hmem
    have hshort : s'.length < (b ++ nl :: s').length := by
      rw [List.length_append, List.length_cons]
      omega
    exact full b s' hb (text_induction nil full last s')
  · by_cases hs : s = []
    · rw [hs]
      exact nil
    · exact last s hmem hs
termination_by s.length

theorem drop_nl (b s : List UInt8) : (b ++ nl :: s).drop (b.length + 1) = s := by
  rw [← List.drop_drop, List.drop_left]
  rfl

/-- Rounds behind the end of the text count nothing. -/
theorem linecountLoop_eq {s : List UInt8} {fuel : Nat} (h : s.length ≤ fuel) :
    linecountLoop fuel s = linecount s := by
  have hmore (fuel fuel' : Nat) (s : List UInt8) (h : s.length ≤ fuel) (h' : s.length ≤ fuel') :
      linecountLoop fuel s = linecountLoop fuel' s := by
    induction s using text_induction generalizing fuel fuel' with
    | nil => cases fuel <;> cases fuel' <;> rfl
    | full b s hb ih =>
      rw [List.length_append, List.length_cons] at h h'
      obtain ⟨f, rfl⟩ := Nat.exists_eq_succ_of_ne_zero (show fuel ≠ 0 by omega)
      obtain ⟨f', rfl⟩ := Nat.exists_eq_succ_of_ne_zero (show fuel' ≠ 0 by omega)
      have hne : b ++ nl :: s ≠ [] := List.append_ne_nil_of_right_ne_nil b nofun
      rw [linecountLoop, linecountLoop, if_neg hne, if_neg hne, linelength_nl hb, drop_nl,
        ih f f' (by omega) (by omega)]
    | last b hb hne =>
      have hpos := List.length_pos_iff.mpr hne
      obtain ⟨f, rfl⟩ := Nat.exists_eq_succ_of_ne_zero (show fuel ≠ 0 by omega)
      obtain ⟨f', rfl⟩ := Nat.exists_eq_succ_of_ne_zero (show fuel' ≠ 0 by omega)
      rw [linecountLoop, linecountLoop, if_neg hne, if_neg hne, linelength_last hb,
        List.drop_of_length_le (Nat.le_refl b.length)]
      cases f <;> cases f' <;> rfl
  exact hmore fuel s.length s h (Nat.le_refl _)

theorem linecount_nl {b : List UInt8} (hb : nl ∉ b) (s : List UInt8) :
    linecount (b ++ nl :: s) = linecount s + 1 := by
  have hne : b ++ nl :: s ≠ [] := List.append_ne_nil_of_right_ne_nil b nofun
  have hlen : (b ++ nl :: s).length = (b.length + s.length) + 1 := by
    rw [List.length_append, List.length_cons]
    omega
  rw [linecount, hlen, linecountLoop, if_neg hne, linelength_nl hb, drop_nl,
    linecountLoop_eq (by omega)]

theorem linecount_last {b : List UInt8} (hb : nl ∉ b) (hne : b ≠ []) : linecount b = 1 := by
  obtain ⟨c, b', rfl⟩ := List.exists_cons_of_ne_nil hne
  rw [linecount, List.length_cons, linecountLoop, if_neg hne, linelength_last hb,
    List.drop_of_length_le (Nat.le_refl _)]
  cases b'.length <;> rfl

/-! ## 2. Lines -/

/-- A line whose newline was in the text. -/
def fullLine (b : List UInt8) : Line := ⟨b ++ [nl], b.length + 1⟩

/-- A line that got its newline from `lbuf_replace`. -/
def openLine (b : List UInt8) : Line := ⟨b ++ [nl], b.length⟩

/-- The lines that `lbuf_replace` makes. -/
inductive Line.Proper : Line → Prop
  | full {b : List UInt8} (hb : nl ∉ b) : Proper (fullLine b)
  | last {b : List UInt8} (hb : nl ∉ b) (hne : b ≠ []) : Proper (openLine b)

/-- The newline of the line counts as part of it. -/
def Line.Ended (l : Line) : Prop := l.lnLen = l.ln.length

instance (l : Line) : Decidable l.Ended := inferInstanceAs (Decidable (_ = _))

theorem fullLine_text (b : List UInt8) : (fullLine b).text = b ++ [nl] :=
  List.take_of_length_le (by rw [fullLine, List.length_append]; exact Nat.le_refl _)

theorem openLine_text (b : List UInt8) : (openLine b).text = b := List.take_left

theorem fullLine_ended (b : List UInt8) : (fullLine b).Ended := by
  rw [Line.Ended, fullLine, List.length_append]
  rfl

theorem openLine_not_ended (b : List UInt8) : ¬ (openLine b).Ended := by
  rw [Line.Ended, openLine, List.length_append]
  show b.length ≠ b.length + 1
  omega

theorem linesOf_nl {b : List UInt8} (hb : nl ∉ b) (s : List UInt8) :
    linesOf (b ++ nl :: s) = fullLine b :: linesOf s := by
  have hget : (b ++ nl :: s)[b.length + 1 - 1]? = some nl := by
    rw [Nat.add_sub_cancel, List.getElem?_append_right (Nat.le_refl _), Nat.sub_self]
    rfl
  rw [linesOf, linecount_nl hb, newLines, linelength_nl hb, drop_nl, if_pos ⟨by omega, hget⟩,
    Nat.add_sub_cancel, List.take_left]
  rfl

theorem linesOf_last {b : List UInt8} (hb : nl ∉ b) (hne : b ≠ []) : linesOf b = [openLine b] := by
  have hget : ¬ (0 < b.length ∧ b[b.length - 1]? = some nl) := fun h =>
    hb (List.mem_of_getElem? h.2)
  rw [linesOf, linecount_last hb hne, newLines, linelength_last hb, if_neg hget,
    List.take_of_length_le (Nat.le_refl _)]
  rfl

theorem linesOf_length (s : List UInt8) : (linesOf s).length = linecount s := by
  have hlen (n : Nat) (s : List UInt8) : (newLines n s).length = n := by
    induction n generalizing s with
    | zero => rfl
    | succ n ih => rw [newLines, List.length_cons, ih]
  exact hlen _ s

theorem linesOf_text (s : List UInt8) : (linesOf s).flatMap Line.text = s := by
  induction s using text_induction with
  | nil => rfl
  | full b s hb ih =>
    rw [linesOf_nl hb, List.flatMap_cons, ih, fullLine_text, List.append_assoc]
    rfl
  | last b hb hne =>
    rw [linesOf_last hb hne, List.flatMap_cons, openLine_text]
    exact List.append_nil b

theorem linesOf_proper {s : List UInt8} : ∀ l ∈ linesOf s, l.Proper := by
  induction s using text_induction with
  | nil => exact nofun
  | full b s hb ih =>
    rw [linesOf_nl hb]
    intro l hl
    rcases List.mem_cons.mp hl with rfl | hl
    · exact .full hb
    · exact ih l hl
  | last b hb hne =>
    rw [linesOf_last hb hne]
    intro l hl
    rw [List.mem_singleton.mp hl]
    exact .last hb hne

/-- Every line but the last is ended. -/
def Separated (ls : List Line) : Prop := ∀ l ∈ ls.dropLast, l.Ended

instance (ls : List Line) : Decidable (Separated ls) := inferInstanceAs (Decidable (∀ l ∈ _, _))

theorem separated_cons {l : Line} {ls : List Line} (h : Separated (l :: ls)) :
    Separated ls := by
  cases ls with
  | nil => exact nofun
  | cons l' ls => exact fun x hx => h x (List.mem_cons_of_mem _ hx)

theorem linesOf_separated (s : List UInt8) : Separated (linesOf s) := by
  induction s using text_induction with
  | nil => exact nofun
  | full b s hb ih =>
    rw [linesOf_nl hb]
    cases hs : linesOf s with
    | nil => exact nofun
    | cons l ls =>
      rw [hs] at ih
      intro x hx
      rcases List.mem_cons.mp hx with rfl | hx
      · exact fullLine_ended b
      · exact ih x hx
  | last b hb hne =>
    rw [linesOf_last hb hne]
    exact nofun

/-- The text of lines that are apart is cut into these lines again. -/
theorem linesOf_flatMap_text {ls : List Line} (hp : ∀ l ∈ ls, l.Proper) (hs : Separated ls) :
    linesOf (ls.flatMap Line.text) = ls := by
  induction ls with
  | nil => rfl
  | cons l ls ih =>
    have ih := ih (fun x hx => hp x (List.mem_cons_of_mem _ hx)) (separated_cons hs)
    rw [List.flatMap_cons]
    cases hp l List.mem_cons_self with
    | @full b hb =>
      rw [fullLine_text, List.append_assoc]
      exact (linesOf_nl hb _).trans (congrArg _ ih)
    | @last b hb hne =>
      -- a line without its newline is the last of the text
      have hnil : ls = [] := by
        cases ls with
        | nil => rfl
        | cons l' ls => exact absurd (hs _ List.mem_cons_self) (openLine_not_ended b)
      rw [hnil, openLine_text]
      exact (congrArg linesOf (List.append_nil b)).trans (linesOf_last hb hne)

end Neatvi
