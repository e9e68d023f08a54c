import ZteWifi.H2t.Entities

/-!
# What stands inside markup

The scanner comes to the same byte behind a comment, a declaration, a tag or a skipped element,
whatever stands inside; and it comes to it in the same way whatever was read before.
-/

open Ascii LineBuf

namespace H2t

namespace Stream

/-! ## 1. Between tokens -/

/-- The loop of `main` reads all of these bytes, and the input does not end inside a token. -/
inductive Between : List UInt8 → Prop
  | nil : Between []
  | turn {c : UInt8} {s r : List UInt8} (h : (mainStep c s).2 = some r) (hr : Between r) :
      Between (c :: s)

section
variable (b : List UInt8)

theorem skipComment_append {d2 d1 : UInt8} {s r : List UInt8} (h : skipComment d2 d1 s = some r) :
    skipComment d2 d1 (s ++ b) = some (r ++ b) := by
  induction s generalizing d2 d1 with
  | nil => cases h
  | cons c s ih =>
    rw [skipComment] at h
    rw [List.cons_append, skipComment]
    split at h
    · next hend =>
      cases h
      rw [if_pos hend]
    · next hend => rw [if_neg hend, ih h]

theorem skipDecl_append {s r : List UInt8} (h : skipDecl s = some r) :
    skipDecl (s ++ b) = some (r ++ b) := by
  induction s with
  | nil => cases h
  | cons c s ih =>
    rw [skipDecl] at h
    rw [List.cons_append, skipDecl]
    split at h
    · next hgt =>
      cases h
      rw [if_pos hgt]
    · next hgt => rw [if_neg hgt, ih h]

theorem attrs_append {q : Option UInt8} {s r : List UInt8} {self : Bool}
    (h : attrs q s = (self, some r)) : attrs q (s ++ b) = (self, some (r ++ b)) := by
  induction s generalizing q with
  | nil => cases q <;> cases h
  | cons c s ih =>
    cases q with
    | some q => exact ih h
    | none =>
      rw [attrs] at h
      rw [List.cons_append, attrs]
      split at h
      · next hgt =>
        cases h
        rw [if_pos hgt]
      next hgt =>
      rw [if_neg hgt]
      split at h
      · next hquote => rw [if_pos hquote, ih h]
      next hquote =>
      rw [if_neg hquote]
      split at h
      · next hslash =>
        rw [if_pos hslash]
        cases s with
        | nil => cases h
        | cons d s =>
          -- whether the slash closes the tag is told by the next byte, which has been read
          rw [List.cons_append, List.head?_cons] at *
          split at h
          · next hd =>
            cases h
            rw [if_pos hd]
            rfl
          · next hd =>
            rw [if_neg hd]
            exact ih h
      · next hslash => rw [if_neg hslash, ih h]

theorem skipToGt_append {q : Option UInt8} {s r : List UInt8} (h : skipToGt q s = some r) :
    skipToGt q (s ++ b) = some (r ++ b) := by
  rw [← attrs_rest] at h ⊢
  rcases hrun : attrs q s with ⟨self, rest⟩
  rw [hrun] at h
  rw [attrs_append b (hrun.trans (congrArg _ h))]

theorem skipUntilClose_append {name s r : List UInt8} (h : skipUntilClose name s = some r) :
    skipUntilClose name (s ++ b) = some (r ++ b) := by
  obtain ⟨u, hu, hr⟩ := Option.bind_eq_some_iff.mp h
  rw [skipUntilClose, Search.scan_append b hu]
  exact skipToGt_append b hr

theorem dropWhile_append_left {p : UInt8 → Bool} {s : List UInt8} (h : s.dropWhile p ≠ []) :
    (s ++ b).takeWhile p = s.takeWhile p ∧ (s ++ b).dropWhile p = s.dropWhile p ++ b := by
  induction s with
  | nil => exact absurd rfl h
  | cons c s ih =>
    by_cases hc : p c
    · rw [List.dropWhile_cons_of_pos hc] at h
      obtain ⟨htake, hdrop⟩ := ih h
      rw [List.cons_append, List.takeWhile_cons_of_pos hc, List.takeWhile_cons_of_pos hc,
        List.dropWhile_cons_of_pos hc, List.dropWhile_cons_of_pos hc, htake, hdrop]
      exact ⟨rfl, rfl⟩
    · rw [List.cons_append, List.takeWhile_cons_of_neg hc, List.takeWhile_cons_of_neg hc,
        List.dropWhile_cons_of_neg hc, List.dropWhile_cons_of_neg hc]
      exact ⟨rfl, rfl⟩

theorem readTag_append {s r : List UInt8} (h : (readTag s).rest = some r) :
    readTag (s ++ b) = { readTag s with rest := some (r ++ b) } := by
  rw [readTag_eq] at h
  -- a byte stands behind the name already, so `b` does not lengthen it
  have hne : (fromName s).dropWhile isNameChar ≠ [] := by
    intro hnil
    rw [hnil] at h
    cases h
  have hhead : (s ++ b).head? = s.head? := by
    cases s with
    | nil => exact absurd rfl hne
    | cons c s => rfl
  have hname : fromName (s ++ b) = fromName s ++ b := by
    rw [fromName, fromName, hhead]
    split
    · next hslash =>
      obtain ⟨s, rfl⟩ := List.head?_eq_some_iff.mp hslash
      rfl
    · rfl
  obtain ⟨htake, hdrop⟩ := dropWhile_append_left b hne
  rcases hrun : attrs none ((fromName s).dropWhile isNameChar) with ⟨self, rest⟩
  rw [hrun] at h
  simp only at h
  subst h
  simp only [readTag_eq, hname, hhead, htake, hdrop, hrun, attrs_append b hrun]

theorem afterTag_append {t : Tag} {u r : List UInt8} (ht : t.rest = some u)
    (h : (afterTag t).2 = some r) :
    afterTag { t with rest := some (u ++ b) } = ((afterTag t).1, some (r ++ b)) := by
  have hskips : Tag.skips { t with rest := some (u ++ b) } = t.skips := rfl
  rw [afterTag] at h
  rw [afterTag, afterTag, hskips]
  split at h
  · next hskip =>
    rw [ht, Option.bind_some] at h
    rw [if_pos hskip, if_pos hskip]
    simp only [Option.bind_some, skipUntilClose_append b h]
  · next hskip =>
    obtain rfl : u = r := Option.some.inj (ht.symm.trans h)
    rw [if_neg hskip, if_neg hskip]

theorem handleTag_append {s r : List UInt8} (h : (handleTag s).2 = some r) :
    handleTag (s ++ b) = ((handleTag s).1, some (r ++ b)) := by
  by_cases hcomment : [0x21, minus, minus] <+: s
  · obtain ⟨s, rfl⟩ := hcomment
    exact congrArg (Prod.mk []) (skipComment_append b h)
  cases s with
  | nil => cases h
  | cons c s =>
    by_cases hdecl : c = 0x21 ∨ c = 0x3F
    · have hs : c = 0x21 ∧ ¬ [minus, minus] <+: s ∨ c = 0x3F := by
        refine hdecl.imp_left fun hbang => ⟨hbang, fun hminus => hcomment ?_⟩
        rw [hbang]
        exact List.cons_prefix_cons.mpr ⟨rfl, hminus⟩
      rw [handleTag_decl hs] at h ⊢
      -- `b` could complete `!-` to the start of a comment, were the `-` the last byte
      have hgt : gt ∈ s := by
        by_contra hgt
        rw [skipDecl_eq, if_neg hgt] at h
        cases h
      have hsb : c = 0x21 ∧ ¬ [minus, minus] <+: s ++ b ∨ c = 0x3F := by
        refine hs.imp_left fun hbang => ⟨hbang.1, fun hminus => hbang.2 ?_⟩
        rcases s with _ | ⟨d, _ | ⟨e, s⟩⟩
        · exact absurd hgt List.not_mem_nil
        · have hd : minus = d := (List.cons_prefix_cons.mp hminus).1
          exact absurd (hd.trans (List.mem_singleton.mp hgt).symm) (by decide)
        · simpa using hminus
      rw [List.cons_append, handleTag_decl hsb, skipDecl_append b h]
    · have hopen (s : List UInt8) : handleTag (c :: s) = afterTag (readTag (c :: s)) :=
        handleTag_tag (fun h => hdecl (.inl (Option.some.inj h)))
          fun h => hdecl (.inr (Option.some.inj h))
      rw [hopen] at h
      rw [List.cons_append, hopen, hopen]
      cases hrest : (readTag (c :: s)).rest with
      | none =>
        rw [afterTag, hrest] at h
        split at h <;> cases h
      | some u =>
        rw [← List.cons_append, readTag_append b hrest, afterTag_append b hrest h]

theorem appendTextByte_append {c : UInt8} {s r : List UInt8}
    (h : (appendTextByte c s).2 = some r) :
    appendTextByte c (s ++ b) = ((appendTextByte c s).1, some (r ++ b)) := by
  rw [appendTextByte] at h
  rw [appendTextByte, appendTextByte]
  split at h
  · next hascii =>
    cases h
    rw [if_pos hascii, if_pos hascii]
  next hascii =>
  rw [if_neg hascii, if_neg hascii]
  split at h
  · next hsingle =>
    cases h
    rw [if_pos hsingle, if_pos hsingle]
  next hsingle =>
  rw [if_neg hsingle, if_neg hsingle]
  simp only at h ⊢
  split at h
  · next hlen =>
    cases h
    rw [if_pos (by rw [List.length_append]; omega), List.take_append_of_le_length hlen,
      List.drop_append_of_le_length hlen]
  · cases h

end

/-! ## 2. Entities before a tag -/

section
variable (b : List UInt8)

/-- The `<` of a tag ends a number as the end of the input does. -/
theorem numLoop_append (base : Nat) (s : List UInt8) (r : NumRef) {c : Option UInt8}
    (hc : r.c = some semicolon ↔ c = some semicolon) :
    ∃ d, ((numLoop base r s).1.c = some semicolon ↔ d = some semicolon) ∧
      numLoop base { r with c := c } (s ++ lt :: b) =
        ({ (numLoop base r s).1 with c := d }, (numLoop base r s).2 ++ lt :: b) := by
  induction s generalizing r c with
  | nil =>
    rw [List.nil_append, numLoop, numLoop, show digitOf base lt = none from rfl]
    split
    -- the loop asks for one byte more and gets the `<`; at the end of the input it gets none
    · exact ⟨some lt, by simp, rfl⟩
    · exact ⟨c, hc, rfl⟩
  | cons d s ih =>
    rw [List.cons_append, numLoop, numLoop]
    split
    · split
      · exact ⟨some d, Iff.rfl, rfl⟩
      · simp only
        split
        · exact ⟨some d, Iff.rfl, rfl⟩
        · exact ih _ Iff.rfl
    · exact ⟨c, hc, rfl⟩

theorem numericDigits_append {base : Nat} {pre : List UInt8} (hpre : NumPrefix base pre)
    (s : List UInt8) : numericDigits base pre (s ++ lt :: b) =
      ((numericDigits base pre s).1, (numericDigits base pre s).2 ++ lt :: b) := by
  have hroom : pre.length + 1 < 40 := by
    have hle := hpre.length_le
    omega
  have hhead : s.head? = some semicolon ↔ (s ++ lt :: b).head? = some semicolon := by
    cases s with
    | nil => simp
    | cons c s => rfl
  obtain ⟨d, hd, hrun⟩ := numLoop_append b base s ⟨pre, 0, false, s.head?⟩ hhead
  obtain ⟨u, hread⟩ := numLoop_read base s ⟨pre, 0, false, s.head?⟩ (.inl hroom)
  have hsemi := hread.semi
  rw [numericDigits, numericDigits, hrun]
  generalize numLoop base ⟨pre, 0, false, s.head?⟩ s = x at hd hsemi ⊢
  obtain ⟨r, rest⟩ := x
  simp only at hd hsemi ⊢
  by_cases hend : r.any ∧ r.c = some semicolon
  · obtain ⟨t, rfl⟩ := List.head?_eq_some_iff.mp (hsemi hend.2).1
    rw [if_pos hend, if_pos ⟨hend.1, hd.mp hend.2⟩]
    rfl
  · rw [if_neg hend, if_neg fun h => hend ⟨h.1, hd.mpr h.2⟩]

theorem numericEntity_append (s : List UInt8) : numericEntity (s ++ lt :: b) =
    ((numericEntity s).1, (numericEntity s).2 ++ lt :: b) := by
  cases s with
  | nil => exact numericDigits_append b .decimal []
  | cons c s =>
    rw [List.cons_append, numericEntity, numericEntity]
    split
    · next hx => exact numericDigits_append b (.hex hx) s
    · exact numericDigits_append b .decimal (c :: s)

theorem nameLoop_append (s tmp : List UInt8) {c c' : Option UInt8}
    (hc : c = some semicolon ↔ c' = some semicolon) :
    ∃ d, ((nameLoop tmp c s).2.1 = some semicolon ↔ d = some semicolon) ∧
      nameLoop tmp c' (s ++ lt :: b) =
        ((nameLoop tmp c s).1, d, (nameLoop tmp c s).2.2 ++ lt :: b) := by
  induction s generalizing tmp c c' with
  | nil =>
    rw [List.nil_append, nameLoop, nameLoop, show isalnum lt = false from rfl]
    split
    · exact ⟨some lt, by simp, rfl⟩
    · exact ⟨c', hc, rfl⟩
  | cons d s ih =>
    rw [List.cons_append, nameLoop, nameLoop]
    split
    · split
      · exact ih _ Iff.rfl
      · exact ⟨some d, Iff.rfl, rfl⟩
    · exact ⟨c', hc, rfl⟩

theorem namedEntity_append (c : UInt8) (s : List UInt8) : namedEntity c (s ++ lt :: b) =
    ((namedEntity c s).1, (namedEntity c s).2 ++ lt :: b) := by
  obtain ⟨d, hd, hrun⟩ := nameLoop_append b (c :: s) [] (Iff.refl (some c = some semicolon))
  obtain ⟨-, -, -, -, hsemi⟩ := nameLoop_spec (c :: s) [] (some c) (.inl (by decide))
  rw [namedEntity, namedEntity, ← List.cons_append, hrun]
  generalize nameLoop [] (some c) (c :: s) = x at hd hsemi ⊢
  obtain ⟨tmp, e, rest⟩ := x
  simp only at hd hsemi ⊢
  by_cases htmp : tmp = []
  · rw [if_pos htmp, if_pos htmp]
  rw [if_neg htmp, if_neg htmp]
  by_cases hend : e = some semicolon
  · obtain ⟨t, rfl⟩ := List.head?_eq_some_iff.mp (hsemi hend).1
    rw [if_pos hend, if_pos (hd.mp hend)]
    rfl
  · rw [if_neg hend, if_neg (mt hd.mpr hend)]

theorem decodeEntity_append (s : List UInt8) : decodeEntity (s ++ lt :: b) =
    ((decodeEntity s).1, (decodeEntity s).2 ++ lt :: b) := by
  cases s with
  | nil => rfl
  | cons c s =>
    rw [List.cons_append, decodeEntity, decodeEntity]
    split
    · exact numericEntity_append b s
    · exact namedEntity_append b c s

/-! ## 3. Tokens before a tag -/

theorem dropWhile_append_lt (s : List UInt8) :
    (s ++ lt :: b).dropWhile isspace = s.dropWhile isspace ++ lt :: b := by
  induction s with
  | nil => rfl
  | cons c s ih =>
    rw [List.cons_append, List.dropWhile_cons, List.dropWhile_cons, ih]
    split <;> rfl

theorem mainStep_append {c : UInt8} {s r : List UInt8} (h : (mainStep c s).2 = some r) :
    mainStep c (s ++ lt :: b) = ((mainStep c s).1, some (r ++ lt :: b)) := by
  rw [mainStep] at h
  rw [mainStep, mainStep]
  split at h
  · next hlt =>
    rw [if_pos hlt, if_pos hlt]
    exact handleTag_append _ h
  next hlt =>
  rw [if_neg hlt, if_neg hlt]
  split at h
  · next hamp =>
    cases h
    rw [if_pos hamp, if_pos hamp, decodeEntity_append]
  next hamp =>
  rw [if_neg hamp, if_neg hamp]
  split at h
  · next hspace =>
    cases h
    rw [if_pos hspace, if_pos hspace, dropWhile_append_lt]
  next hspace =>
  rw [if_neg hspace, if_neg hspace]
  split at h
  · next hctl =>
    cases h
    rw [if_pos hctl, if_pos hctl]
  next hctl =>
  rw [if_neg hctl, if_neg hctl]
  exact appendTextByte_append _ h

/-- What is printed before a tag does not depend on it. -/
theorem commands_append {a : List UInt8} (ha : Between a) :
    commands (a ++ lt :: b) = commands a ++ commands (lt :: b) := by
  induction ha with
  | nil => rfl
  | @turn c s r h _ ih =>
    rw [List.cons_append, commands_cons, commands_cons, mainStep_append b h, h, Option.getD_some,
      Option.getD_some, ih, List.append_assoc]

end

/-! ## 4. Behind the markup -/

/-- Attributes: quotes are closed, and there is no `>` outside of them. -/
inductive Balanced : List UInt8 → Prop
  | nil : Balanced []
  | plain {c : UInt8} {x : List UInt8} (hquote : ¬ (c = quote ∨ c = apos)) (hgt : c ≠ gt)
      (hx : Balanced x) : Balanced (c :: x)
  | quoted {q : UInt8} {v x : List UInt8} (hq : q = quote ∨ q = apos) (hv : q ∉ v)
      (hx : Balanced x) : Balanced (q :: (v ++ q :: x))

theorem Balanced.head_ne {c : UInt8} {x : List UInt8} (h : Balanced (c :: x)) : c ≠ gt := by
  cases h with
  | plain _ hgt _ => exact hgt
  | quoted hq _ _ => rcases hq with rfl | rfl <;> decide

theorem attrs_quoted {q : UInt8} {v : List UInt8} (hv : q ∉ v) (s : List UInt8) :
    attrs (some q) (v ++ q :: s) = attrs none s := by
  induction v with
  | nil => rw [List.nil_append, attrs, if_pos rfl]
  | cons c v ih =>
    rw [List.cons_append, attrs, if_neg (List.ne_of_not_mem_cons hv).symm,
      ih (List.not_mem_of_not_mem_cons hv)]

/-- A tag with such attributes ends behind them. -/
theorem attrs_balanced {x : List UInt8} (h : Balanced x) (b : List UInt8) :
    attrs none (x ++ gt :: b) = (decide (x.getLast? = some slash), some b) := by
  induction h with
  | nil => rfl
  | @plain c x hquote hgt hx ih =>
    rw [List.cons_append, attrs, if_neg hgt, if_neg hquote]
    cases x with
    | nil =>
      by_cases hslash : c = slash
      · subst hslash
        rfl
      -- any other last byte is part of the attribute
      · have hlast : [c].getLast? ≠ some slash := fun heq => hslash (Option.some.inj heq)
        rw [if_neg hslash, decide_eq_false hlast]
        rfl
    | cons d x =>
      have hhead : ((d :: x) ++ gt :: b).head? ≠ some gt := fun heq =>
        hx.head_ne (Option.some.inj heq)
      rw [List.getLast?_cons_cons, if_neg hhead, ite_self]
      exact ih
  | @quoted q v x hq hv hx ih =>
    have hgt : q ≠ gt := by rcases hq with rfl | rfl <;> decide
    have hslash : q ≠ slash := by rcases hq with rfl | rfl <;> decide
    -- a slash inside the quotes does not close the tag
    have hlast : (q :: (v ++ q :: x)).getLast? = some slash ↔ x.getLast? = some slash := by
      rw [List.append_cons, ← List.cons_append, List.getLast?_append]
      cases hx : x.getLast? with
      | some c => rfl
      | none =>
        rw [Option.none_or, ← List.cons_append, List.getLast?_append]
        simpa using hslash
    rw [List.cons_append, attrs, if_neg hgt, if_pos hq, List.append_assoc, List.cons_append,
      attrs_quoted hv, ih]
    simp only [hlast]

/-- The part of a tag up to its attributes fixes everything. -/
theorem readTag_balanced (closing : Bool) {name x : List UInt8} (hne : name ≠ [])
    (hname : ∀ c ∈ name, isNameChar c) (hx : Balanced x)
    (hhead : ∀ c ∈ x.head?, isNameChar c = false) (b : List UInt8) :
    readTag ((if closing then [slash] else []) ++ (name ++ (x ++ gt :: b))) =
      ⟨closing, (name.take 63).map tolower, x.getLast? = some slash, some b⟩ := by
  have hstop : ∀ c ∈ (x ++ gt :: b).head?, ¬ isNameChar c = true := by
    cases x with
    | nil =>
      rintro c ⟨⟩
      decide
    | cons d x => exact fun c hc => by simpa using hhead c hc
  have htake : (name ++ (x ++ gt :: b)).takeWhile isNameChar = name := by
    rw [List.takeWhile_append_of_pos hname]
    cases hrest : x ++ gt :: b with
    | nil => simp at hrest
    | cons c s =>
      rw [List.takeWhile_cons_of_neg (hstop c (by rw [hrest]; rfl)), List.append_nil]
  have hdrop : (name ++ (x ++ gt :: b)).dropWhile isNameChar = x ++ gt :: b := by
    rw [List.dropWhile_append_of_pos hname]
    cases hrest : x ++ gt :: b with
    | nil => simp at hrest
    | cons c s => rw [List.dropWhile_cons_of_neg (hstop c (by rw [hrest]; rfl))]
  have hfrom : fromName ((if closing then [slash] else []) ++ (name ++ (x ++ gt :: b))) =
      name ++ (x ++ gt :: b) := by
    cases closing with
    | true => rfl
    | false =>
      obtain ⟨c, name, rfl⟩ := List.exists_cons_of_ne_nil hne
      refine if_neg fun hslash => ?_
      cases hslash
      exact absurd (hname slash List.mem_cons_self) (by decide)
  have hclosing : decide (((if closing then [slash] else []) ++
      (name ++ (x ++ gt :: b))).head? = some slash) = closing := by
    cases closing with
    | true => rfl
    | false =>
      obtain ⟨c, name, rfl⟩ := List.exists_cons_of_ne_nil hne
      refine decide_eq_false fun hslash => ?_
      cases hslash
      exact absurd (hname slash List.mem_cons_self) (by decide)
  rw [readTag_eq, hfrom, htake, hdrop, attrs_balanced hx, hclosing]

/-- A tag with these attributes. -/
theorem handleTag_balanced (closing : Bool) {name x : List UInt8} (hne : name ≠ [])
    (hname : ∀ c ∈ name, isNameChar c) (hx : Balanced x)
    (hhead : ∀ c ∈ x.head?, isNameChar c = false) (b : List UInt8) :
    handleTag ((if closing then [slash] else []) ++ (name ++ (x ++ gt :: b))) =
      afterTag ⟨closing, (name.take 63).map tolower, x.getLast? = some slash, some b⟩ := by
  have hfirst : ∀ c ∈ ((if closing then [slash] else []) ++ (name ++ (x ++ gt :: b))).head?,
      c ≠ 0x21 ∧ c ≠ 0x3F := by
    obtain ⟨c, name, rfl⟩ := List.exists_cons_of_ne_nil hne
    cases closing with
    | true =>
      rintro c ⟨⟩
      decide
    | false =>
      rintro d ⟨⟩
      have hc := hname c List.mem_cons_self
      constructor <;> rintro rfl <;> exact absurd hc (by decide)
  rw [handleTag_tag (fun h => (hfirst _ h).1 rfl) fun h => (hfirst _ h).2 rfl,
    readTag_balanced closing hne hname hx hhead]

end Stream

/-! ## 5. Contents -/

/-- A piece of markup, up to what stands inside. -/
inductive Markup
  | comment
  | declaration (c : UInt8) (hc : c = 0x21 ∨ c = 0x3F)
  | tag (closing : Bool) (name : List UInt8) (hne : name ≠ []) (hname : ∀ c ∈ name, isNameChar c)
  | skipped (name : List UInt8) (hname : name ∈ skippedNames)

namespace Markup

/-- The bytes of the piece with `x` inside, behind the `<`. -/
def inner : Markup → List UInt8 → List UInt8
  | .comment, x => [0x21, minus, minus] ++ (x ++ [minus, minus, gt])
  | .declaration c _, x => c :: (x ++ [gt])
  | .tag closing name _ _, x => (if closing then [slash] else []) ++ (name ++ (x ++ [gt]))
  | .skipped name _, x => name ++ (gt :: (x ++ (lt :: slash :: (name ++ [gt]))))

def bytes (m : Markup) (x : List UInt8) : List UInt8 := lt :: m.inner x

/-- What may stand inside. -/
def Admits : Markup → List UInt8 → Prop
  | .comment, x => ¬ [minus, minus, gt] <:+: x
  | .declaration c _, x => gt ∉ x ∧ (c = 0x21 → ¬ [minus, minus] <+: x)
  | .tag _ _ _ _, x => Stream.Balanced x ∧ (∀ c ∈ x.head?, isNameChar c = false) ∧
      x.getLast? ≠ some slash
  | .skipped name _, x => ¬ lt :: slash :: name <:+: x.map tolower

/-- What the scanner does with the piece, whatever stands inside. -/
def step : Markup → List UInt8 → Stream.Step
  | .comment, b | .declaration _ _, b | .skipped _ _, b => ([], some b)
  | .tag closing name _ _, b => Stream.afterTag ⟨closing, (name.take 63).map tolower, false, some b⟩

theorem comment_end {x : List UInt8} (hx : ¬ [minus, minus, gt] <:+: x) (b : List UInt8) :
    Stream.skipComment 0 0 (x ++ [minus, minus, gt] ++ b) = some b := by
  -- the search looks at lower-case bytes, but only these three become the end mark
  have hmap : ¬ [minus, minus] ++ [gt] <:+: x.map tolower := by
    rw [List.infix_map_iff]
    rintro ⟨l, hl, heq⟩
    have hl' : l = [minus, minus, gt] := by
      rcases l with _ | ⟨c, _ | ⟨d, _ | ⟨e, _ | ⟨f, l⟩⟩⟩⟩ <;>
        simp only [List.map_nil, List.map_cons, List.cons_append, List.nil_append, List.cons.injEq,
          reduceCtorEq, and_false] at heq
      obtain ⟨hc, hd, he, -⟩ := heq
      rw [(Stream.tolower_eq_minus c).mp hc.symm, (Stream.tolower_eq_minus d).mp hd.symm,
        (Stream.tolower_eq_gt e).mp he.symm]
    exact hx (hl' ▸ hl)
  have hend := Search.endsFirst_of_last (b.map tolower) (by decide) hmap
  rw [Stream.skipComment_start]
  refine Search.behind_append ?_
  rw [List.map_append]
  exact hend

theorem skippedNames_spec {name : List UInt8} (h : name ∈ skippedNames) :
    name ≠ [] ∧ (∀ c ∈ name, isNameChar c) ∧ (name.take 63).map tolower = name := by
  have hlower : ∀ name ∈ skippedNames, name ≠ [] ∧ (name.take 63).map tolower = name := by
    decide +kernel
  have hchars : (skippedNames.all fun name => name.all isNameChar) = true := by decide +kernel
  obtain ⟨hne, heq⟩ := hlower name h
  exact ⟨hne, List.all_eq_true.mp (List.all_eq_true.mp hchars name h), heq⟩

theorem closing_end {name x : List UInt8} (hname : name ∈ skippedNames)
    (hx : ¬ lt :: slash :: name <:+: x.map tolower) (b : List UInt8) :
    Stream.skipUntilClose name (x ++ lt :: slash :: name ++ gt :: b) = some b := by
  have hall : ∀ name ∈ skippedNames, Stream.closePat name = lt :: slash :: name ∧
      (lt :: slash :: name).map tolower = lt :: slash :: name ∧ lt ∉ slash :: name := by
    decide +kernel
  obtain ⟨hpat, hlower, honce⟩ := hall name hname
  have hend := Search.endsFirst_of_head ((gt :: b).map tolower) honce hx
  have hbehind : Search.behind tolower (lt :: slash :: name)
      (x ++ lt :: slash :: name ++ gt :: b) = some (gt :: b) := by
    refine Search.behind_append ?_
    rw [List.map_append, hlower]
    exact hend
  rw [Stream.skipUntilClose_eq, hpat, hbehind]
  rfl

theorem handleTag_inner (m : Markup) {x : List UInt8} (hx : m.Admits x) (b : List UInt8) :
    Stream.handleTag (m.inner x ++ b) = m.step b := by
  cases m with
  | comment =>
    rw [inner, List.append_assoc]
    exact congrArg (Prod.mk []) (comment_end hx b)
  | declaration c hc =>
    obtain ⟨hgt, hminus⟩ := hx
    -- the `>` behind `x` is no `-`, so that no comment starts across it
    have hdecl : c = 0x21 ∧ ¬ [minus, minus] <+: x ++ [gt] ++ b ∨ c = 0x3F := by
      refine hc.imp_left fun hbang => ⟨hbang, fun hpre => hminus hbang ?_⟩
      rcases x with _ | ⟨d, _ | ⟨e, x⟩⟩
      · exact absurd (List.cons_prefix_cons.mp hpre).1 (by decide)
      · have hgt := (List.cons_prefix_cons.mp hpre).2
        exact absurd (List.cons_prefix_cons.mp hgt).1 (by decide)
      · simpa using hpre
    have hwhile : ∀ d ∈ x, decide (d ≠ gt) = true := by
      intro d hd
      exact decide_eq_true fun h => hgt (h ▸ hd)
    rw [inner, List.cons_append, Stream.handleTag_decl hdecl, Stream.skipDecl_eq, List.append_assoc,
      List.singleton_append, if_pos (List.mem_append_right x List.mem_cons_self),
      List.dropWhile_append_of_pos hwhile]
    rfl
  | tag closing name hne hname =>
    obtain ⟨hbalanced, hhead, hlast⟩ := hx
    rw [inner, List.append_assoc, List.append_assoc, List.append_assoc, List.singleton_append,
      Stream.handleTag_balanced closing hne hname hbalanced hhead, decide_eq_false hlast]
    rfl
  | skipped name hname =>
    obtain ⟨hne, hchar, hlower⟩ := skippedNames_spec hname
    have hopen := Stream.handleTag_balanced false hne hchar .nil (by simp)
      (x ++ lt :: slash :: name ++ gt :: b)
    have hbytes : inner (.skipped name hname) x ++ b =
        name ++ gt :: (x ++ lt :: slash :: name ++ gt :: b) := by
      simp only [inner, List.append_assoc, List.cons_append, List.nil_append]
    simp only [Bool.false_eq_true, if_false, List.nil_append, hlower] at hopen
    rw [hbytes, hopen, Stream.afterTag, if_pos (by simpa [Stream.Tag.skips] using hname)]
    simp only [Option.bind_some, closing_end hname hx b]
    rfl

end Markup

/-- What stands inside a piece of markup is not seen. -/
theorem contents_unseen (m : Markup) {a : List UInt8} (ha : Stream.Between a) (b : List UInt8)
    {x y : List UInt8} (hx : m.Admits x) (hy : m.Admits y) :
    Stream.main (a ++ m.bytes x ++ b) = Stream.main (a ++ m.bytes y ++ b) := by
  have hcommands {z : List UInt8} (hz : m.Admits z) : Stream.commands (a ++ m.bytes z ++ b) =
      Stream.commands a ++ ((m.step b).1 ++ Stream.commands ((m.step b).2.getD [])) := by
    rw [List.append_assoc, Markup.bytes, List.cons_append, Stream.commands_append _ ha,
      Stream.commands_cons, Stream.mainStep, if_pos rfl, m.handleTag_inner hz]
  rw [Stream.main, Stream.main, hcommands hx, hcommands hy]

/-- A comment with a dash inside, and one with a tag. -/
theorem contents_unseen_comments :
    Stream.main (bytes "a" ++ Markup.comment.bytes (bytes "-") ++ bytes "b") =
      Stream.main (bytes "a" ++ Markup.comment.bytes (bytes "<p>") ++ bytes "b") :=
  contents_unseen .comment (.turn (c := 0x61) (s := []) (r := []) rfl .nil) (bytes "b")
    (x := bytes "-") (y := bytes "<p>") (show ¬ _ from by decide +kernel)
    (show ¬ _ from by decide +kernel)

end H2t
