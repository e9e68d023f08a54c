import ZteWifi.J2t.Nesting
import ZteWifi.Text.Boundary

/-!
# Spellings of a character

A string can give a character by its bytes, by an escape of its own or by its code.  `j2t.c` does the
same for all of them, except that it folds a tabulator, a line feed and a carriage return only when
they come by an escape of their own.
-/

open Ascii LineBuf

namespace J2t

/-! ## 1. Spellings -/

/-- The escapes of the grammar and what they stand for. -/
def shortEscapes : List (UInt8 × UInt8) :=
  [(quote, quote), (backslash, backslash), (slash, slash), (0x62, 0x08), (0x66, 0x0C), (0x6E, 0x0A),
    (0x72, 0x0D), (0x74, 0x09)]

/-- The items by which a string can give a character. -/
inductive Spelling (ch : Char) : Str → Prop
  | ascii {c : UInt8} (h : c < 0x80 ∧ c ≠ quote ∧ c ≠ backslash) (hprint : ¬ c < 0x20)
      (hch : ch.toNat = c.toNat) : Spelling ch [.ascii c h]
  | multi {c : UInt8} {cont : List UInt8} (h : ¬ c < 0x80 ∧ cont.length = utf8CharLen c - 1)
      (hch : String.utf8EncodeChar ch = c :: cont) : Spelling ch [.multi c cont h]
  | short {c d : UInt8} (h : c ≠ 0x75) (hcd : (c, d) ∈ shortEscapes) (hch : ch.toNat = d.toNat) :
      Spelling ch [.escape c h]
  | unicode {ds : List UInt8} (h : ds.length = 4 ∧ ds.all fun c => (hexDigit c).isSome)
      (hch : hexValue ds = ch.toNat) : Spelling ch [.unicode ds h]
  | pair {hi lo : List UInt8} (hhi : hi.length = 4 ∧ hi.all fun c => (hexDigit c).isSome)
      (hlo : lo.length = 4 ∧ lo.all fun c => (hexDigit c).isSome)
      (hhigh : Trace.isHighSurrogate (hexValue hi)) (hlow : Trace.isLowSurrogate (hexValue lo))
      (hch : surrogatePair (hexValue hi) (hexValue lo) = ch.toNat) :
      Spelling ch [.unicode hi hhi, .unicode lo hlo]

/-- The character comes by an escape of its own. -/
def Str.isShort : Str → Bool
  | [.escape _ _] => true
  | _ => false

/-- A tabulator, a line feed or a carriage return. -/
def Folds (ch : Char) : Prop := ch.toNat = 0x09 ∨ ch.toNat = 0x0A ∨ ch.toNat = 0x0D

/-- One of the spellings is folded, the other is not. -/
def Clash (ch : Char) (x y : Str) : Prop := Folds ch ∧ x.isShort ≠ y.isShort

/-! ## 2. What a spelling puts on the line -/

theorem encode_of_toNat {ch : Char} {c : UInt8} (hc : c < 0x80) (hch : ch.toNat = c.toNat) :
    String.utf8EncodeChar ch = [c] := by
  have hchar := Text.encode_ascii c hc
  rw [← hch, Char.ofNat_toNat] at hchar
  exact hchar

namespace Str

/-- An item puts calls on the line whatever follows it. -/
theorem cmdsAfter_cons (pending : Option Nat) (i : Item) :
    ∃ cs pending', ∀ s, cmdsAfter pending (i :: s) = cs ++ cmdsAfter pending' s := by
  cases i with
  | escape c h => exact ⟨_, none, fun s => rfl⟩
  | ascii c h => exact ⟨[if c < 0x20 then .space else .byte c], none, fun s => rfl⟩
  | multi c cont h => exact ⟨_, none, fun s => rfl⟩
  | unicode ds h =>
    simp only [cmdsAfter]
    by_cases hhigh : Trace.isHighSurrogate (hexValue ds)
    · exact ⟨[], some (hexValue ds), fun s => if_pos hhigh⟩
    simp only [if_neg hhigh]
    by_cases hlow : Trace.isLowSurrogate (hexValue ds)
    · simp only [if_pos hlow]
      cases pending with
      | none => exact ⟨[], none, fun s => rfl⟩
      | some hi => exact ⟨[.utf8 (surrogatePair hi (hexValue ds))], none, fun s => rfl⟩
    · simp only [if_neg hlow]
      exact ⟨[.utf8 (hexValue ds)], none, fun s => rfl⟩

theorem cmdsAfter_append (pending : Option Nat) (a : Str) :
    ∃ cs pending', ∀ s, cmdsAfter pending (a ++ s) = cs ++ cmdsAfter pending' s := by
  induction a generalizing pending with
  | nil => exact ⟨[], pending, fun s => rfl⟩
  | cons i a ih =>
    obtain ⟨cs, pending', hi⟩ := cmdsAfter_cons pending i
    obtain ⟨ds, pending'', ha⟩ := ih pending'
    refine ⟨cs ++ ds, pending'', fun s => ?_⟩
    rw [List.cons_append, hi, ha, List.append_assoc]

end Str

theorem shortEscapes_spec {c d : UInt8} (h : (c, d) ∈ shortEscapes) : d < 0x80 ∧
    (Trace.escapeCmds c = [.byte d] ∨
      (c = 0x6E ∧ d = 0x0A ∨ c = 0x72 ∧ d = 0x0D ∨ c = 0x74 ∧ d = 0x09)) := by
  have hall : (shortEscapes.all fun p => p.2 < 0x80 ∧ (Trace.escapeCmds p.1 = [.byte p.2] ∨
      (p.1 = 0x6E ∧ p.2 = 0x0A ∨ p.1 = 0x72 ∧ p.2 = 0x0D ∨ p.1 = 0x74 ∧ p.2 = 0x09))) = true := by
    decide +kernel
  exact of_decide_eq_true (List.all_eq_true.mp hall (c, d) h)

/-- Unless it is folded, a spelling appends the character. -/
theorem Spelling.appends {ch : Char} {x : Str} (h : Spelling ch x)
    (hfold : ¬ (x.isShort = true ∧ Folds ch)) (pending : Option Nat) :
    ∃ cs, (∀ s, Str.cmdsAfter pending (x ++ s) = cs ++ Str.cmdsAfter none s) ∧ Appends ch cs := by
  cases h with
  | @ascii c h hprint hch =>
    refine ⟨[.byte c], fun s => ?_, appends_byte (encode_of_toNat h.1 hch)⟩
    show Str.cmdsAfter pending (.ascii c h :: s) = _
    rw [Str.cmdsAfter, if_neg hprint]
    rfl
  | @multi c cont h hch =>
    have hpos := utf8CharLen_pos c
    exact ⟨Trace.charCmds c cont, fun s => rfl, appends_char hch (by omega)⟩
  | @short c d h hcd hch =>
    obtain ⟨hascii, hcmds | hwhite⟩ := shortEscapes_spec hcd
    · refine ⟨[.byte d], fun s => ?_, appends_byte (encode_of_toNat hascii hch)⟩
      show Trace.escapeCmds c ++ Str.cmdsAfter none s = _
      rw [hcmds]
    · refine absurd ⟨rfl, ?_⟩ hfold
      unfold Folds
      rw [hch]
      rcases hwhite with ⟨-, rfl⟩ | ⟨-, rfl⟩ | ⟨-, rfl⟩ <;> decide
  | @unicode ds h hch =>
    refine ⟨[.utf8 ch.toNat], fun s => ?_, appends_utf8 ch⟩
    show Str.cmdsAfter pending (.unicode ds h :: s) = _
    have hvalue : ¬ Trace.isHighSurrogate ch.toNat ∧ ¬ Trace.isLowSurrogate ch.toNat := by
      have hnat : ch.toNat.isValidChar := ch.valid
      unfold Nat.isValidChar at hnat
      constructor <;> rintro ⟨hle, hge⟩ <;> omega
    simp only [Str.cmdsAfter, hch, if_neg hvalue.1, if_neg hvalue.2]
    rfl
  | @pair hi lo hhi hlo hhigh hlow hch =>
    refine ⟨[.utf8 ch.toNat], fun s => ?_, appends_utf8 ch⟩
    show Str.cmdsAfter pending (.unicode hi hhi :: .unicode lo hlo :: s) = _
    have hnot : ¬ Trace.isHighSurrogate (hexValue lo) := fun h => by omega
    simp only [Str.cmdsAfter, if_pos hhigh, if_neg hnot, if_pos hlow, hch]
    rfl

/-- A character has no more than one escape of its own. -/
theorem Spelling.eq_of_short {ch : Char} {x y : Str} (hx : Spelling ch x) (hy : Spelling ch y)
    (hshortx : x.isShort = true) (hshorty : y.isShort = true) : x = y := by
  have hunique : (shortEscapes.all fun p => shortEscapes.all fun q =>
      p.2 = q.2 → p.1 = q.1) = true := by
    decide +kernel
  cases hx with
  | @short c d h hcd hch =>
    cases hy with
    | @short c' d' h' hcd' hch' =>
      have hd : d = d' := UInt8.toNat_inj.mp (hch.symm.trans hch')
      have hrow := List.all_eq_true.mp hunique (c, d) hcd
      obtain rfl : c = c' := of_decide_eq_true (List.all_eq_true.mp hrow (c', d') hcd') hd
      rfl
    | _ => cases hshorty
  | _ => cases hshortx

/-- Unless they clash, two spellings of a character have the same effect. -/
theorem Spelling.same {ch : Char} {x y : Str} (hx : Spelling ch x) (hy : Spelling ch y)
    (hclash : ¬ Clash ch x y) (pending : Option Nat) (s : Str) (b : LineBuf) :
    execAll (Str.cmdsAfter pending (x ++ s)) b = execAll (Str.cmdsAfter pending (y ++ s)) b := by
  by_cases hboth : Folds ch ∧ x.isShort = true
  · obtain ⟨hfolds, hshort⟩ := hboth
    have hkind : x.isShort = y.isShort := by
      by_contra hne
      exact hclash ⟨hfolds, hne⟩
    rw [hx.eq_of_short hy hshort (hkind ▸ hshort)]
  · have hy' : ¬ (y.isShort = true ∧ Folds ch) := by
      rintro ⟨hshort, hfolds⟩
      refine hclash ⟨hfolds, fun hkind => hboth ⟨hfolds, ?_⟩⟩
      rw [hkind]
      exact hshort
    obtain ⟨cs, hcs, happends⟩ := hx.appends (fun h => hboth ⟨h.2, h.1⟩) pending
    obtain ⟨ds, hds, happends'⟩ := hy.appends hy' pending
    rw [hcs, hds, execAll_append, execAll_append, happends, happends']

/-! ## 3. Documents -/

/-- At most one place of the string is spelled in the other way. -/
def Swap (x y s s' : Str) : Prop := s' = s ∨ ∃ a b, s = a ++ (x ++ b) ∧ s' = a ++ (y ++ b)

/-- Trees that differ in nothing but related strings. -/
inductive Cst.Respelled (R : Str → Str → Prop) : {p : Part} → Cst p → Cst p → Prop
  | emptyObject (w : Ws) : Respelled R (.emptyObject w) (.emptyObject w)
  | object {ms ms' : Cst .members} (hms : Respelled R ms ms') :
      Respelled R (.object ms) (.object ms')
  | emptyArray (w : Ws) : Respelled R (.emptyArray w) (.emptyArray w)
  | array (w : Ws) {es es' : Cst .elements} (hes : Respelled R es es') :
      Respelled R (.array w es) (.array w es')
  | string {s s' : Str} (hs : R s s') : Respelled R (.string s) (.string s')
  | literal (l : Literal) : Respelled R (.literal l) (.literal l)
  | number (n : Number) : Respelled R (.number n) (.number n)
  | lastMember (before after gap : Ws) {s s' : Str} (hs : R s s') {v v' : Cst .value}
      (hv : Respelled R v v') (w : Ws) :
      Respelled R (.lastMember ⟨before, s, after, gap⟩ v w)
        (.lastMember ⟨before, s', after, gap⟩ v' w)
  | member (before after gap : Ws) {s s' : Str} (hs : R s s') {v v' : Cst .value}
      (hv : Respelled R v v') (w : Ws) {ms ms' : Cst .members} (hms : Respelled R ms ms') :
      Respelled R (.member ⟨before, s, after, gap⟩ v w ms)
        (.member ⟨before, s', after, gap⟩ v' w ms')
  | lastElement {v v' : Cst .value} (hv : Respelled R v v') (w : Ws) :
      Respelled R (.lastElement v w) (.lastElement v' w)
  | element {v v' : Cst .value} (hv : Respelled R v v') (w gap : Ws) {es es' : Cst .elements}
      (hes : Respelled R es es') : Respelled R (.element v w gap es) (.element v' w gap es')

namespace Cst

section
variable {R : Str → Str → Prop} {p : Part} {t t' : Cst p}

theorem Respelled.isContainer (h : Respelled R t t') : t'.isContainer = t.isContainer := by
  cases h <;> rfl

theorem Respelled.weight (h : Respelled R t t') (slip : Bool) :
    t'.weight slip = t.weight slip := by
  induction h generalizing slip with
  | emptyObject | emptyArray | string | literal | number => rfl
  | object _ ih => exact ih false
  | array _ _ ih => exact congrArg (max 1) (ih false)
  | lastMember _ _ _ _ _ _ ih => exact congrArg (childWeight false) (ih false)
  | member _ _ _ _ _ _ _ ihv ihms =>
    exact congrArg₂ max (congrArg (childWeight false) (ihv false)) (ihms false)
  | lastElement _ _ ih => exact congrArg (childWeight slip) (ih false)
  | element _ _ _ _ ihv ihes =>
    exact congrArg₂ max (congrArg (childWeight slip) (ihv false)) (ihes _)

/-- Trees whose strings have the same effect have the same effect. -/
theorem Respelled.execAll (h : Respelled R t t')
    (hR : ∀ s s', R s s' → ∀ b, execAll s'.cmds b = execAll s.cmds b) (slip : Bool) (depth : Nat)
    (b : LineBuf) : execAll (t'.cmds slip depth) b = execAll (t.cmds slip depth) b := by
  have hchild {deeper : Bool} {cmds cmds' : Nat → List Cmd}
      (hcmds : ∀ d b, LineBuf.execAll (cmds' d) b = LineBuf.execAll (cmds d) b) (d : Nat)
      (b : LineBuf) : LineBuf.execAll (childCmds deeper d cmds') b =
        LineBuf.execAll (childCmds deeper d cmds) b := by
    unfold childCmds
    split
    · exact hcmds (d + 1) (exec .flush b)
    · rw [execAll_append, execAll_append, hcmds]
  induction h generalizing slip depth b with
  | emptyObject | emptyArray | literal | number => rfl
  | object _ ih => exact ih false depth b
  | array _ _ ih => exact ih false depth b
  | string hs => exact hR _ _ hs b
  | lastMember _ _ _ hs hv _ ih =>
    simp only [cmds, execAll_cons, execAll_append, hv.isContainer, hR _ _ hs]
    exact hchild (ih false) depth _
  | member _ _ _ hs hv _ hms ihv ihms =>
    simp only [cmds, execAll_cons, execAll_append, hv.isContainer, hR _ _ hs, ihms]
    rw [hchild (ihv false)]
  | lastElement hv _ ih =>
    simp only [cmds, execAll_cons, hv.isContainer]
    exact hchild (ih false) depth _
  | element hv _ _ hes ihv ihes =>
    simp only [cmds, execAll_cons, execAll_append, hv.isContainer, ihes]
    rw [hchild (ihv false)]

end

end Cst

/-- The text of an accepted document has room for its containers. -/
theorem weight_of_accepted {t : Text} {e : Exit} (he : Stream.main t.bytes = some e)
    (haccept : e.status = 0) : t.value.weight false ≤ maxDepth + 1 := by
  by_contra hheavy
  obtain ⟨st, hfail⟩ := Trace.run_fails (Nat.not_le.mp hheavy)
  obtain ⟨e', he', hout, -⟩ := Stream.main_outcome hfail
  obtain rfl : e' = e := Option.some.inj (he'.symm.trans he)
  have hstatus : e'.status = 1 := congrArg Outcome.status hout
  rw [hstatus] at haccept
  cases haccept

/-! ## 4. Which spellings can be exchanged -/

/-- In no accepted document does it matter which of the two is written. -/
def Interchangeable (x y : Str) : Prop :=
  ∀ (before after : Ws) (v v' : Cst .value), Cst.Respelled (Swap x y) v v' →
    ∀ e, Stream.main (Text.bytes ⟨before, v, after⟩) = some e → e.status = 0 →
      ∃ e', Stream.main (Text.bytes ⟨before, v', after⟩) = some e' ∧ e'.stdout = e.stdout ∧
        e'.status = e.status

theorem swap_same {x y : Str}
    (hxy : ∀ pending s b,
      execAll (Str.cmdsAfter pending (x ++ s)) b = execAll (Str.cmdsAfter pending (y ++ s)) b)
    {s s' : Str} (h : Swap x y s s') (b : LineBuf) : execAll s'.cmds b = execAll s.cmds b := by
  rcases h with rfl | ⟨a, k, rfl, rfl⟩
  · rfl
  · obtain ⟨cs, pending, ha⟩ := Str.cmdsAfter_append none a
    rw [Str.cmds, Str.cmds, ha, ha, execAll_append, execAll_append, hxy]

theorem interchangeable_of {x y : Str}
    (hxy : ∀ pending s b,
      execAll (Str.cmdsAfter pending (x ++ s)) b = execAll (Str.cmdsAfter pending (y ++ s)) b) :
    Interchangeable x y := by
  intro before after v v' hv e he haccept
  have hweight := weight_of_accepted he haccept
  have hweight' : v'.weight false ≤ maxDepth + 1 := by
    rw [hv.weight]
    exact hweight
  obtain ⟨e₁, he₁, -, hout⟩ := Stream.main_text ⟨before, v, after⟩ hweight
  obtain ⟨e', he', hstatus', hout'⟩ := Stream.main_text ⟨before, v', after⟩ hweight'
  obtain rfl : e₁ = e := Option.some.inj (he₁.symm.trans he)
  refine ⟨e', he', ?_, hstatus'.trans haccept.symm⟩
  rw [hout, hout', execAll_append, execAll_append,
    hv.execAll (fun s s' hs => swap_same hxy hs) false 0]

/-- What is printed of a string by itself. -/
def alone (x : Str) : List UInt8 := (execAll (x.cmds ++ [.flush]) .empty).stdout

theorem Interchangeable.alone_eq {x y : Str} (h : Interchangeable x y) : alone y = alone x := by
  obtain ⟨e, he, haccept, hout⟩ := Stream.main_text ⟨.none, .string x, .none⟩ (Nat.zero_le _)
  obtain ⟨e₁, he₁, -, hout₁⟩ := Stream.main_text ⟨.none, .string y, .none⟩ (Nat.zero_le _)
  have hswap : Cst.Respelled (Swap x y) (.string x) (.string y) :=
    .string (.inr ⟨[], [], (List.append_nil x).symm, (List.append_nil y).symm⟩)
  obtain ⟨e', he', hsame, -⟩ := h .none .none _ _ hswap e he haccept
  obtain rfl : e₁ = e' := Option.some.inj (he₁.symm.trans he')
  exact hout₁.symm.trans (hsame.trans hout)

/-- Folded at the start of a line the character disappears. -/
theorem alone_short {ch : Char} {x : Str} (hx : Spelling ch x) (hfolds : Folds ch)
    (hshort : x.isShort = true) : alone x = [] := by
  have hall : (shortEscapes.all fun p => p.2.toNat = 0x09 ∨ p.2.toNat = 0x0A ∨ p.2.toNat = 0x0D →
      (execAll (Trace.escapeCmds p.1 ++ [] ++ [.flush]) .empty).stdout = []) = true := by
    decide +kernel
  cases hx with
  | @short c d h hcd hch =>
    unfold Folds at hfolds
    rw [hch] at hfolds
    exact of_decide_eq_true (List.all_eq_true.mp hall (c, d) hcd) hfolds
  | _ => cases hshort

/-- Given by its code it stays. -/
theorem alone_of_not_short {ch : Char} {x : Str} (hx : Spelling ch x) (hfolds : Folds ch)
    (hshort : x.isShort = false) : alone x ≠ [] := by
  obtain ⟨cs, hcs, happends⟩ := hx.appends (fun h => by rw [hshort] at h; cases h.1) none
  have hcmds : x.cmds = cs := by
    have h := hcs []
    rw [List.append_nil] at h
    exact h.trans (List.append_nil cs)
  rw [alone, hcmds, execAll_append, happends]
  rcases hfolds with hch | hch | hch
  · rw [encode_of_toNat (c := 0x09) (by decide) hch]
    decide
  · rw [encode_of_toNat (c := 0x0A) (by decide) hch]
    decide
  · rw [encode_of_toNat (c := 0x0D) (by decide) hch]
    decide

/-- Two spellings of a character can be exchanged in every accepted document exactly if they do not
clash. -/
theorem interchangeable_iff {ch : Char} {x y : Str} (hx : Spelling ch x) (hy : Spelling ch y) :
    Interchangeable x y ↔ ¬ Clash ch x y := by
  constructor
  · rintro hxy ⟨hfolds, hkind⟩
    have hsame := hxy.alone_eq
    cases hshort : x.isShort with
    | true =>
      have hother : y.isShort = false := by
        rw [hshort] at hkind
        exact (Bool.eq_false_or_eq_true _).resolve_left fun h => hkind h.symm
      rw [alone_short hx hfolds hshort] at hsame
      exact alone_of_not_short hy hfolds hother hsame
    | false =>
      have hother : y.isShort = true := by
        rw [hshort] at hkind
        exact (Bool.eq_false_or_eq_true _).resolve_right fun h => hkind h.symm
      rw [alone_short hy hfolds hother] at hsame
      exact alone_of_not_short hx hfolds hshort hsame.symm
  · intro hclash
    exact interchangeable_of fun pending s b => hx.same hy hclash pending s b

theorem newline_ne_u : (0x6E : UInt8) ≠ 0x75 := by decide

/-- The code of a line feed. -/
theorem newline_digits : [0x30, 0x30, 0x30, 0x61].length = 4 ∧
    ([0x30, 0x30, 0x30, 0x61] : List UInt8).all fun c => (hexDigit c).isSome := by
  decide

/-- A string that is a line feed prints nothing, or two line feeds. -/
theorem not_interchangeable_newline :
    ¬ ∀ (ch : Char) (x y : Str), Spelling ch x → Spelling ch y → Interchangeable x y := by
  intro h
  have hshort : Spelling (Char.ofNat 0x0A) [.escape 0x6E newline_ne_u] :=
    .short newline_ne_u (d := 0x0A) (by decide +kernel) (by decide)
  have hcode : Spelling (Char.ofNat 0x0A) [.unicode [0x30, 0x30, 0x30, 0x61] newline_digits] :=
    .unicode newline_digits (by decide +kernel)
  have hne : alone [.unicode [0x30, 0x30, 0x30, 0x61] newline_digits] ≠
      alone [.escape 0x6E newline_ne_u] := by
    decide +kernel
  exact hne (h _ _ _ hshort hcode).alone_eq

theorem letter_plain : (0x41 : UInt8) < 0x80 ∧ (0x41 : UInt8) ≠ quote ∧
    (0x41 : UInt8) ≠ backslash := by
  decide

theorem letter_digits : [0x30, 0x30, 0x34, 0x31].length = 4 ∧
    ([0x30, 0x30, 0x34, 0x31] : List UInt8).all fun c => (hexDigit c).isSome := by
  decide

/-- The letter `A` and its code. -/
theorem interchangeable_letter : Interchangeable [.ascii 0x41 letter_plain]
    [.unicode [0x30, 0x30, 0x34, 0x31] letter_digits] := by
  have hletter : Spelling (Char.ofNat 0x41) [.ascii 0x41 letter_plain] :=
    .ascii letter_plain (by decide) (by decide)
  have hcode : Spelling (Char.ofNat 0x41) [.unicode [0x30, 0x30, 0x34, 0x31] letter_digits] :=
    .unicode letter_digits (by decide +kernel)
  refine (interchangeable_iff hletter hcode).mpr ?_
  rintro ⟨hfolds, -⟩
  unfold Folds at hfolds
  exact absurd hfolds (by decide)

end J2t
