import ZteWifi.H2t.Stream

/-!
# Where the tokens end

Each incremental scanner of `h2t.c` stops where a search over the whole rest of the input would:
a comment at the first `-->`, a skipped element behind the first closing tag of its name, a tag at
the first `>` outside quotes.
-/

open Ascii LineBuf

namespace H2t.Stream

/-! ## 1. Searches -/

/-- The end of a comment. -/
def commentEnd : List UInt8 := [minus, minus, gt]

theorem tolower_eq_minus : ∀ c : UInt8, tolower c = minus ↔ c = minus := by
  decide +kernel

theorem tolower_eq_gt : ∀ c : UInt8, tolower c = gt ↔ c = gt := by decide +kernel

theorem commentEnd_prefix (c d e : UInt8) (s : List UInt8) :
    commentEnd <+: (c :: d :: e :: s).map tolower ↔ c = minus ∧ d = minus ∧ e = gt := by
  simp only [commentEnd, List.map_cons, List.cons_prefix_cons, List.nil_prefix, and_true,
    eq_comm (b := tolower _), tolower_eq_minus, tolower_eq_gt]

theorem find_commentEnd_cons {c : UInt8} (hc : c ≠ minus) (s : List UInt8) :
    Search.find commentEnd ((c :: s).map tolower) =
      (Search.find commentEnd (s.map tolower)).map (· + 1) := by
  rw [List.map_cons, Search.find, if_neg]
  rw [commentEnd, List.cons_prefix_cons, eq_comm, tolower_eq_minus]
  exact fun h => hc h.1

theorem skipComment_eq (d2 d1 : UInt8) (s : List UInt8) :
    skipComment d2 d1 s =
      (Search.find commentEnd ((d2 :: d1 :: s).map tolower)).map fun i => s.drop (i + 1) := by
  induction s generalizing d2 d1 with
  | nil =>
    have hnone : Search.find commentEnd ([d2, d1].map tolower) = none := by
      cases h : Search.find commentEnd ([d2, d1].map tolower) with
      | none => rfl
      | some i =>
        have hle := (Search.find_some_end h).1
        simp [commentEnd] at hle
    rw [skipComment, hnone, Option.map_none]
  | cons c s ih =>
    have hpre := commentEnd_prefix d2 d1 c s
    rw [List.map_cons] at hpre
    rw [skipComment, List.map_cons, Search.find]
    by_cases hend : d2 = minus ∧ d1 = minus ∧ c = gt
    · rw [if_pos hend, if_pos (hpre.mpr hend)]
      rfl
    · rw [if_neg hend, if_neg (mt hpre.mp hend), ih, Option.map_map]
      rfl

/-- A comment ends at its first `-->`. -/
theorem skipComment_start (s : List UInt8) :
    skipComment 0 0 s = Search.behind tolower commentEnd s := by
  rw [skipComment_eq, find_commentEnd_cons (by decide), find_commentEnd_cons (by decide),
    Search.behind, Option.map_map, Option.map_map]
  rfl

/-- A skipped element ends with the first closing tag of its name. -/
theorem skipUntilClose_eq (name s : List UInt8) :
    skipUntilClose name s = (Search.behind tolower (closePat name) s).bind (skipToGt none) := by
  have hpat : closePat name ≠ [] := List.cons_ne_nil _ _
  rw [skipUntilClose, Search.scan_eq hpat]

/-! ## 2. The end of a tag -/

theorem skipDecl_eq (s : List UInt8) :
    skipDecl s = if gt ∈ s then some (s.dropWhile (· ≠ gt)).tail else none := by
  induction s with
  | nil => rfl
  | cons c s ih =>
    rw [skipDecl]
    by_cases hc : c = gt
    · subst hc
      rw [if_pos rfl, if_pos List.mem_cons_self, List.dropWhile_cons_of_neg (by decide)]
      rfl
    · rw [if_neg hc, ih, List.dropWhile_cons_of_pos (by simpa using hc)]
      simp only [List.mem_cons, show ¬ gt = c from fun h => hc h.symm, false_or]

theorem skipDecl_getD (s : List UInt8) : (skipDecl s).getD [] = (s.dropWhile (· ≠ gt)).tail := by
  rw [skipDecl_eq]
  split
  · rfl
  · next hgt =>
    rw [List.dropWhile_eq_nil_iff.mpr fun c hc => by simpa using fun h : c = gt => hgt (h ▸ hc)]
    rfl

theorem skipToGt_eq_none {s : List UInt8} (h : gt ∉ s) (q : Option UInt8) :
    skipToGt q s = none := by
  induction s generalizing q with
  | nil => cases q <;> rfl
  | cons c s ih =>
    have hc := List.ne_of_not_mem_cons h
    have hs := List.not_mem_of_not_mem_cons h
    cases q with
    | some q => exact ih hs _
    | none =>
      rw [skipToGt, if_neg hc.symm]
      split
      · exact ih hs _
      · exact ih hs _

/-- Without quotes before the next `>` that is where the closing tag ends. -/
theorem skipToGt_getD {s : List UInt8}
    (h : gt ∈ s → ∀ c ∈ s.takeWhile (· ≠ gt), ¬ (c = quote ∨ c = apos)) :
    (skipToGt none s).getD [] = (s.dropWhile (· ≠ gt)).tail := by
  by_cases hgt : gt ∈ s
  · replace h := h hgt
    clear hgt
    induction s with
    | nil => rfl
    | cons c s ih =>
      rw [skipToGt]
      by_cases hc : c = gt
      · subst hc
        rw [if_pos rfl, List.dropWhile_cons_of_neg (by decide)]
        rfl
      · rw [List.takeWhile_cons_of_pos (by simpa using hc)] at h
        rw [if_neg hc, if_neg (h c List.mem_cons_self),
          List.dropWhile_cons_of_pos (by simpa using hc)]
        exact ih fun c hc => h c (List.mem_cons_of_mem _ hc)
  · rw [skipToGt_eq_none hgt, ← skipDecl_getD, skipDecl_eq, if_neg hgt]

/-! ## 3. Tags -/

/-- The loop over the attributes ends where the loop behind a closing tag would. -/
theorem attrs_rest (q : Option UInt8) (s : List UInt8) : (attrs q s).2 = skipToGt q s := by
  induction s generalizing q with
  | nil => cases q <;> rfl
  | cons c s ih =>
    cases q with
    | some q => exact ih _
    | none =>
      rw [attrs, skipToGt]
      by_cases hgt : c = gt
      · rw [if_pos hgt, if_pos hgt]
      rw [if_neg hgt, if_neg hgt]
      by_cases hq : c = quote ∨ c = apos
      · rw [if_pos hq, if_pos hq, ih]
      rw [if_neg hq, if_neg hq]
      by_cases hslash : c = slash
      · rw [if_pos hslash]
        cases s with
        | nil => rfl
        | cons d s =>
          by_cases hd : d = gt
          · rw [List.head?_cons, if_pos (congrArg some hd), skipToGt, if_pos hd]
            rfl
          · rw [List.head?_cons, if_neg fun h => hd (Option.some.inj h), ih]
      · rw [if_neg hslash, ih]

/-- The bytes of a tag from its name on. -/
def fromName (s : List UInt8) : List UInt8 := if s.head? = some slash then s.tail else s

theorem readTag_eq (s : List UInt8) :
    readTag s = ⟨s.head? = some slash,
      (((fromName s).takeWhile isNameChar).take 63).map tolower,
      (attrs none ((fromName s).dropWhile isNameChar)).1,
      (attrs none ((fromName s).dropWhile isNameChar)).2⟩ := by
  simp only [readTag, decide_eq_true_eq, fromName]

theorem handleTag_decl {c : UInt8} {s : List UInt8}
    (h : c = 0x21 ∧ ¬ [minus, minus] <+: s ∨ c = 0x3F) : handleTag (c :: s) = ([], skipDecl s) := by
  rcases h with ⟨rfl, hs⟩ | rfl
  · rw [handleTag, List.head?_cons, if_pos rfl, List.tail_cons]
    by_cases hminus : s.head? = some minus
    · obtain ⟨s, rfl⟩ := List.head?_eq_some_iff.mp hminus
      rw [if_pos hminus, List.tail_cons, if_neg]
      · rfl
      · intro hminus'
        obtain ⟨s, rfl⟩ := List.head?_eq_some_iff.mp hminus'
        exact hs (List.prefix_append [minus, minus] s)
    · rw [if_neg hminus]
  · rfl

theorem handleTag_tag {s : List UInt8} (hbang : s.head? ≠ some 0x21)
    (hquestion : s.head? ≠ some 0x3F) : handleTag s = afterTag (readTag s) := by
  rw [handleTag, if_neg hbang, if_neg hquestion]

/-! ## 4. What is left unread -/

/-! Whatever starts with `<` ends behind a `>`. -/

theorem skipComment_suffix {d2 d1 : UInt8} {s r : List UInt8} (h : skipComment d2 d1 s = some r) :
    gt :: r <:+ s := by
  induction s generalizing d2 d1 with
  | nil => cases h
  | cons c s ih =>
    rw [skipComment] at h
    split at h
    · next hend =>
      cases h
      rw [hend.2.2]
    · exact (ih h).trans (List.suffix_cons c s)

theorem skipDecl_suffix {s r : List UInt8} (h : skipDecl s = some r) : gt :: r <:+ s := by
  induction s with
  | nil => cases h
  | cons c s ih =>
    rw [skipDecl] at h
    split at h
    · next hc =>
      cases h
      rw [hc]
    · exact (ih h).trans (List.suffix_cons c s)

theorem skipToGt_suffix {q : Option UInt8} {s r : List UInt8} (h : skipToGt q s = some r) :
    gt :: r <:+ s := by
  induction s generalizing q with
  | nil => cases q <;> cases h
  | cons c s ih =>
    cases q with
    | some q => exact (ih h).trans (List.suffix_cons c s)
    | none =>
      rw [skipToGt] at h
      split at h
      · next hc =>
        cases h
        rw [hc]
      · refine List.IsSuffix.trans ?_ (List.suffix_cons c s)
        split at h
        · exact ih h
        · exact ih h

theorem skipUntilClose_suffix {name s r : List UInt8} (h : skipUntilClose name s = some r) :
    gt :: r <:+ s := by
  rw [skipUntilClose_eq, Search.behind] at h
  obtain ⟨u, hu, hr⟩ := Option.bind_eq_some_iff.mp h
  obtain ⟨i, -, rfl⟩ := Option.map_eq_some_iff.mp hu
  exact (skipToGt_suffix hr).trans (List.drop_suffix _ _)

theorem readTag_suffix {s r : List UInt8} (h : (readTag s).rest = some r) : gt :: r <:+ s := by
  simp only [readTag, attrs_rest] at h
  refine (skipToGt_suffix h).trans ((List.dropWhile_suffix _).trans ?_)
  split
  · exact List.tail_suffix s
  · exact List.suffix_refl s

theorem handleTag_suffix {s r : List UInt8} (h : (handleTag s).2 = some r) : gt :: r <:+ s := by
  rw [handleTag] at h
  split at h
  · refine List.IsSuffix.trans ?_ (List.tail_suffix s)
    split at h
    · refine List.IsSuffix.trans ?_ (List.tail_suffix s.tail)
      split at h
      · exact (skipComment_suffix h).trans (List.tail_suffix _)
      · exact skipDecl_suffix h
    · exact skipDecl_suffix h
  split at h
  · exact (skipDecl_suffix h).trans (List.tail_suffix s)
  rw [afterTag] at h
  split at h
  · obtain ⟨u, hu, hr⟩ := Option.bind_eq_some_iff.mp h
    exact (skipUntilClose_suffix hr).trans ((List.suffix_cons gt u).trans (readTag_suffix hu))
  · exact readTag_suffix h

theorem numLoop_suffix (base : Nat) (r : NumRef) (s : List UInt8) : (numLoop base r s).2 <:+ s := by
  induction s generalizing r with
  | nil =>
    rw [numLoop]
    split <;> exact List.suffix_refl _
  | cons c s ih =>
    rw [numLoop]
    split
    · split
      · exact List.suffix_refl _
      · split
        · exact List.suffix_refl _
        · exact (ih _).trans (List.suffix_cons c s)
    · exact List.suffix_refl _

theorem numericDigits_suffix (base : Nat) (tmp s : List UInt8) :
    (numericDigits base tmp s).2 <:+ s := by
  have hrest := numLoop_suffix base ⟨tmp, 0, false, s.head?⟩ s
  rw [numericDigits]
  rcases hrun : numLoop base ⟨tmp, 0, false, s.head?⟩ s with ⟨r, rest⟩
  rw [hrun] at hrest
  simp only
  split
  · exact (List.tail_suffix _).trans hrest
  · exact hrest

theorem numericEntity_suffix (s : List UInt8) : (numericEntity s).2 <:+ s := by
  cases s with
  | nil => exact numericDigits_suffix 10 [hash] []
  | cons c s =>
    rw [numericEntity]
    split
    · exact (numericDigits_suffix 16 [hash, c] s).trans (List.suffix_cons c s)
    · exact numericDigits_suffix 10 [hash] (c :: s)

theorem nameLoop_suffix (tmp : List UInt8) (c : Option UInt8) (s : List UInt8) :
    (nameLoop tmp c s).2.2 <:+ s := by
  induction s generalizing tmp c with
  | nil =>
    rw [nameLoop]
    split <;> exact List.suffix_refl _
  | cons d s ih =>
    rw [nameLoop]
    split
    · split
      · exact (ih _ _).trans (List.suffix_cons d s)
      · exact List.suffix_refl _
    · exact List.suffix_refl _

theorem namedEntity_suffix (c : UInt8) (s : List UInt8) : (namedEntity c s).2 <:+ c :: s := by
  have hrest := nameLoop_suffix [] (some c) (c :: s)
  rw [namedEntity]
  rcases hrun : nameLoop [] (some c) (c :: s) with ⟨tmp, d, rest⟩
  rw [hrun] at hrest
  simp only
  split
  · exact hrest
  split
  · exact (List.tail_suffix _).trans hrest
  · exact hrest

theorem decodeEntity_suffix (s : List UInt8) : (decodeEntity s).2 <:+ s := by
  cases s with
  | nil => exact List.suffix_refl _
  | cons c s =>
    rw [decodeEntity]
    split
    · exact (numericEntity_suffix s).trans (List.suffix_cons c s)
    · exact namedEntity_suffix c s

theorem appendTextByte_suffix {c : UInt8} {s r : List UInt8}
    (h : (appendTextByte c s).2 = some r) : r <:+ s := by
  rw [appendTextByte] at h
  split at h
  · cases h
    exact List.suffix_refl _
  split at h
  · cases h
    exact List.suffix_refl _
  · simp only at h
    split at h
    · cases h
      exact List.drop_suffix _ s
    · cases h

theorem mainStep_suffix {c : UInt8} {s r : List UInt8} (h : (mainStep c s).2 = some r) :
    r <:+ s := by
  rw [mainStep] at h
  split at h
  · exact (List.suffix_cons gt r).trans (handleTag_suffix h)
  split at h
  · cases h
    exact decodeEntity_suffix s
  split at h
  · cases h
    exact List.dropWhile_suffix _
  split at h
  · cases h
    exact List.suffix_refl _
  · exact appendTextByte_suffix h

/-! ## 5. The main loop -/

theorem mainStep_length (c : UInt8) (s : List UInt8) :
    ((mainStep c s).2.getD []).length ≤ s.length := by
  cases h : (mainStep c s).2 with
  | none => exact Nat.zero_le _
  | some r => exact (mainStep_suffix h).length_le

/-- As many turns as there are bytes are enough. -/
theorem mainLoop_eq {n : Nat} {s : List UInt8} (h : s.length ≤ n) : mainLoop n s = commands s := by
  suffices hstable : ∀ m n (s : List UInt8), s.length ≤ m → s.length ≤ n →
      mainLoop m s = mainLoop n s from hstable _ _ _ h (Nat.le_refl _)
  intro m
  induction m with
  | zero =>
    intro n s hm _
    rw [List.eq_nil_of_length_eq_zero (Nat.le_zero.mp hm)]
    cases n <;> rfl
  | succ m ih =>
    intro n s hm hn
    cases s with
    | nil => cases n <;> rfl
    | cons c s =>
      cases n with
      | zero => exact absurd hn (Nat.not_succ_le_zero _)
      | succ n =>
        have hlen := mainStep_length c s
        rw [List.length_cons] at hm hn
        rw [mainLoop, mainLoop, ih n _ (by omega) (by omega)]

@[simp] theorem commands_nil : commands [] = [] := rfl

theorem commands_cons (c : UInt8) (s : List UInt8) :
    commands (c :: s) = (mainStep c s).1 ++ commands ((mainStep c s).2.getD []) := by
  rw [commands, List.length_cons, mainLoop, mainLoop_eq (mainStep_length c s)]

/-- Induction along the turns of the loop of `main`. -/
theorem turns_induction {P : List UInt8 → Prop} (nil : P [])
    (turn : ∀ c s, P ((mainStep c s).2.getD []) → P (c :: s)) (s : List UInt8) : P s := by
  suffices hlength : ∀ n (s : List UInt8), s.length ≤ n → P s from hlength _ s (Nat.le_refl _)
  intro n
  induction n with
  | zero =>
    intro s hs
    rw [List.eq_nil_of_length_eq_zero (Nat.le_zero.mp hs)]
    exact nil
  | succ n ih =>
    intro s hs
    cases s with
    | nil => exact nil
    | cons c s =>
      refine turn c s (ih _ (Nat.le_trans (mainStep_length c s) ?_))
      exact Nat.le_of_succ_le_succ hs

end H2t.Stream
