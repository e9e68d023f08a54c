import ZteWifi.H2t.Scanners
import ZteWifi.H2t.Whole

/-!
# The whole-buffer version by what is left

An index into the buffer stands for the bytes from there on.  Read so, the scans of the whole-buffer
version are those of the streaming one; tags, comments and declarations agree on every input, and
skipped elements unless a quote stands in their closing tag.
-/

open Ascii LineBuf

namespace H2t.Whole

variable {html s : List UInt8} {pos : Nat}

/-! ## 1. Positions -/

theorem drop_length_takeWhile (p : UInt8 → Bool) (s : List UInt8) :
    s.drop (s.takeWhile p).length = s.dropWhile p := by
  conv =>
    lhs
    arg 2
    rw [← List.takeWhile_append_dropWhile (p := p) (l := s)]
  rw [List.drop_left]

theorem take_length_takeWhile (p : UInt8 → Bool) (s : List UInt8) :
    s.take (s.takeWhile p).length = s.takeWhile p := by
  conv =>
    lhs
    arg 2
    rw [← List.takeWhile_append_dropWhile (p := p) (l := s)]
  rw [List.take_left]

theorem getElem?_at (h : html.drop pos = s) (k : Nat) : html[pos + k]? = s[k]? := by
  rw [← h, List.getElem?_drop]

theorem drop_at (h : html.drop pos = s) (k : Nat) : html.drop (pos + k) = s.drop k := by
  rw [← h, List.drop_drop]

theorem lt_length_iff (h : html.drop pos = s) (k : Nat) : pos + k < html.length ↔ k < s.length := by
  rw [← h, List.length_drop]
  omega

theorem drop_scanWhile (h : html.drop pos = s) (p : UInt8 → Bool) :
    html.drop (scanWhile html p pos) = s.dropWhile p := by
  rw [scanWhile, drop_at h, h, drop_length_takeWhile]

theorem drop_pastGt (h : html.drop pos = s) :
    html.drop (pastGt html pos) = (s.dropWhile (· ≠ gt)).tail := by
  have hscan := drop_scanWhile h (· ≠ gt)
  rw [pastGt]
  split
  · rw [drop_at hscan, List.drop_one]
  · next hge =>
    rw [hscan, ← hscan, List.drop_of_length_le (Nat.le_of_not_lt hge), List.tail_nil]

/-! ## 2. Every turn goes on -/

theorem le_pastGt (i : Nat) : i ≤ pastGt html i := by
  have hscan : i ≤ scanWhile html (· ≠ gt) i := Nat.le_add_right _ _
  rw [pastGt]
  split
  · exact Nat.le_succ_of_le hscan
  · exact hscan

theorem lt_skipUntilClose (name : List UInt8) {i : Nat} (hi : i < html.length) (h : i < pos) :
    i < skipUntilClose html name pos := by
  rw [skipUntilClose, findCi]
  cases Search.find (((lt :: slash :: name).take 39).map tolower) ((html.drop pos).map tolower) with
  | none => exact hi
  | some j =>
    have hle : pos ≤ pos + j + ((lt :: slash :: name).take 39).length :=
      Nat.le_trans (Nat.le_add_right pos j) (Nat.le_add_right _ _)
    exact Nat.lt_of_lt_of_le (Nat.lt_of_lt_of_le h hle) (le_pastGt _)

theorem le_attrEnd (q : Option UInt8) (p : Nat) (s : List UInt8) : p ≤ attrEnd q p s := by
  induction s generalizing q p with
  | nil => cases q <;> exact Nat.le_refl p
  | cons c s ih =>
    cases q with
    | some q => exact Nat.le_of_succ_le (ih _ _)
    | none =>
      rw [attrEnd]
      split
      · exact Nat.le_refl p
      split
      · exact Nat.le_of_succ_le (ih _ _)
      · exact Nat.le_of_succ_le (ih _ _)

theorem le_digits (base : Nat) (cp : UInt32) (i : Nat) (s : List UInt8) :
    i ≤ (digits base cp i s).2 := by
  induction s generalizing cp i with
  | nil => exact Nat.le_refl i
  | cons c s ih =>
    rw [digits]
    split
    · exact Nat.le_refl i
    · exact Nat.le_of_succ_le (ih _ _)

theorem lt_nameEnd (pos : Nat) : pos < nameEnd html pos := by
  have hstart : pos < nameStart html pos := by
    rw [nameStart]
    split <;> omega
  exact Nat.lt_of_lt_of_le hstart (Nat.le_add_right _ _)

theorem lt_tagEnd (pos : Nat) : pos < tagEnd html pos :=
  Nat.lt_of_lt_of_le (lt_nameEnd pos) (le_attrEnd _ _ _)

theorem lt_readTag (h : pos < html.length) : pos < (readTag html pos).2 := by
  have hend : pos < tagEnd html pos := lt_tagEnd pos
  have hnext : pos < (if tagEnd html pos < html.length then tagEnd html pos + 1
      else tagEnd html pos) := by
    split <;> omega
  rw [readTag]
  split
  · exact lt_skipUntilClose _ h hnext
  · exact hnext

theorem lt_handleTag (h : pos < html.length) : pos < (handleTag html pos).2 := by
  rw [handleTag]
  split
  · next hcomment =>
    rw [findCi]
    cases Search.find (([minus, minus, gt] : List UInt8).map tolower)
        ((html.drop (pos + 4)).map tolower) with
    | none => exact h
    | some i =>
      change pos < pos + 4 + i + 3
      omega
  split
  · exact Nat.lt_of_succ_le (le_pastGt _)
  · exact lt_readTag h

theorem lt_numericDigits (base : Nat) {d0 p : Nat} (h : p < d0) :
    p < (numericDigits html base d0 p).2 := by
  have hle := le_digits base 0 d0 (html.drop d0)
  rw [numericDigits]
  rcases hrun : digits base 0 d0 (html.drop d0) with ⟨cp, i⟩
  rw [hrun] at hle
  simp only
  split
  · exact Nat.lt_succ_self p
  · exact Nat.lt_succ_of_lt (Nat.lt_of_lt_of_le h hle)

theorem lt_numericEntity (p : Nat) : p < (numericEntity html p).2 := by
  rw [numericEntity]
  split
  · exact lt_numericDigits 16 (by omega)
  · exact lt_numericDigits 10 (by omega)

theorem lt_decodeEntity (p : Nat) : p < (decodeEntity html p).2 := by
  rw [decodeEntity]
  split
  · exact Nat.lt_succ_self p
  split
  · exact lt_numericEntity p
  · simp only
    split
    · exact Nat.lt_succ_self p
    · change p < p + 1 + _ + 1
      omega

theorem lt_mainStep {c : UInt8} (h : html[pos]? = some c) : pos < (mainStep html c pos).2 := by
  rw [mainStep]
  split
  · exact lt_handleTag (List.getElem?_eq_some_iff.mp h).1
  split
  · exact lt_decodeEntity pos
  split
  · exact Nat.lt_of_succ_le (Nat.le_add_right _ _)
  split
  · exact Nat.lt_succ_self pos
  · exact Nat.lt_succ_self pos

/-- What the loop does from an index on. -/
def commandsFrom (html : List UInt8) (pos : Nat) : List Cmd := mainLoop html (html.length - pos) pos

/-- As many turns as there are bytes are enough. -/
theorem mainLoop_eq {n : Nat} (h : html.length - pos ≤ n) :
    mainLoop html n pos = commandsFrom html pos := by
  suffices hstable : ∀ m n pos, html.length - pos ≤ m → html.length - pos ≤ n →
      mainLoop html m pos = mainLoop html n pos from hstable _ _ _ h (Nat.le_refl _)
  intro m
  induction m with
  | zero =>
    intro n pos hm _
    cases n with
    | zero => rfl
    | succ n => rw [mainLoop, mainLoop, List.getElem?_eq_none (by omega)]
  | succ m ih =>
    intro n pos hm hn
    cases hc : html[pos]? with
    | none =>
      cases n with
      | zero => rw [mainLoop, mainLoop, hc]
      | succ n => rw [mainLoop, mainLoop, hc]
    | some c =>
      have hlt := (List.getElem?_eq_some_iff.mp hc).1
      have hnext := lt_mainStep hc
      cases n with
      | zero => omega
      | succ n =>
        rw [mainLoop, mainLoop, hc]
        simp only
        rw [ih n _ (by omega) (by omega)]

theorem commandsFrom_nil (h : html.drop pos = []) : commandsFrom html pos = [] := by
  have hle := List.drop_eq_nil_iff.mp h
  rw [commandsFrom, Nat.sub_eq_zero_of_le hle, mainLoop]

theorem commandsFrom_cons {c : UInt8} (h : html.drop pos = c :: s) :
    commandsFrom html pos =
      (mainStep html c pos).1 ++ commandsFrom html (mainStep html c pos).2 := by
  have hc : html[pos]? = some c := by
    rw [← Nat.add_zero pos, getElem?_at h, List.getElem?_cons_zero]
  have hlt := (List.getElem?_eq_some_iff.mp hc).1
  have hnext := lt_mainStep hc
  obtain ⟨n, hn⟩ : ∃ n, html.length - pos = n + 1 := ⟨html.length - pos - 1, by omega⟩
  rw [commandsFrom, hn, mainLoop, hc]
  simp only
  rw [mainLoop_eq (by omega)]

/-! ## 3. Markup -/

/-- Both versions have done the same and go on at the same place. -/
def Meets (html : List UInt8) (x : List Cmd × Nat) (y : Stream.Step) : Prop :=
  x.1 = y.1 ∧ html.drop x.2 = y.2.getD []

/-- No quote stands before the next `>`. -/
def Unquoted (s : List UInt8) : Prop :=
  gt ∈ s → ∀ c ∈ s.takeWhile (· ≠ gt), ¬ (c = quote ∨ c = apos)

theorem findCi_eq (h : html.drop pos = s) (needle : List UInt8) :
    (findCi html pos needle).map (fun i => html.drop (i + needle.length)) =
      Search.behind tolower (needle.map tolower) s := by
  rw [findCi, h, Search.behind, Option.map_map, List.length_map]
  congr 1
  funext i
  rw [Function.comp_apply, Nat.add_assoc, drop_at h]

theorem drop_skipUntilClose (h : html.drop pos = s) (name : List UInt8)
    (hclose : ∀ t, Search.behind tolower (Stream.closePat name) s = some t → Unquoted t) :
    html.drop (skipUntilClose html name pos) = (Stream.skipUntilClose name s).getD [] := by
  have hfind := findCi_eq h ((lt :: slash :: name).take 39)
  rw [Stream.skipUntilClose_eq, skipUntilClose]
  change _ = Search.behind tolower (Stream.closePat name) s at hfind
  cases hidx : findCi html pos ((lt :: slash :: name).take 39) with
  | none =>
    rw [hidx, Option.map_none] at hfind
    rw [← hfind]
    exact List.drop_length
  | some idx =>
    rw [hidx, Option.map_some] at hfind
    rw [← hfind, Option.bind_some, Stream.skipToGt_getD (hclose _ hfind.symm)]
    exact drop_pastGt rfl

/-- The loop over the attributes, in both versions: it runs to the end of the input, or over the
bytes `u` to a `>` outside quotes. -/
def AttrsSplit (q : Option UInt8) (s : List UInt8) : Prop :=
  (Stream.attrs q s = (false, none) ∧ ∀ p, attrEnd q p s = p + s.length) ∨
    ∃ u r, s = u ++ gt :: r ∧ (q ≠ none → u ≠ []) ∧
      Stream.attrs q s = (decide (u.getLast? = some slash), some r) ∧
      ∀ p, attrEnd q p s = p + u.length

/-- One byte more; a slash that stands before the `>` is not passed over. -/
theorem AttrsSplit.cons {q q' : Option UInt8} {c : UInt8} {s : List UInt8} (h : AttrsSplit q' s)
    (hattrs : Stream.attrs q (c :: s) = Stream.attrs q' s)
    (hend : ∀ p, attrEnd q p (c :: s) = attrEnd q' (p + 1) s)
    (hc : c ≠ slash ∨ q' ≠ none ∨ s.head? ≠ some gt) : AttrsSplit q (c :: s) := by
  rcases h with ⟨heof, hlen⟩ | ⟨u, r, rfl, hu, hself, hlen⟩
  · refine .inl ⟨hattrs.trans heof, fun p => ?_⟩
    rw [hend, hlen, List.length_cons]
    omega
  · refine .inr ⟨c :: u, r, rfl, fun _ => List.cons_ne_nil _ _, ?_, fun p => ?_⟩
    · rw [hattrs, hself]
      congr 2
      cases u with
      | nil =>
        have hne : c ≠ slash := hc.resolve_right fun h => h.elim (hu · rfl) (· rfl)
        simp only [List.getLast?_nil, List.getLast?_singleton, Option.some.injEq, hne, reduceCtorEq]
      | cons d u => rw [List.getLast?_cons_cons]
    · rw [hend, hlen, List.length_cons]
      omega

theorem attrs_split {q : Option UInt8} (hq : q ≠ some slash) (s : List UInt8) :
    AttrsSplit q s := by
  induction s generalizing q with
  | nil => exact .inl (by cases q <;> exact ⟨rfl, fun _ => rfl⟩)
  | cons c s ih =>
    cases q with
    | some q =>
      -- within quotes, up to the byte that closes them
      by_cases hc : c = q
      · subst hc
        refine (ih (q := none) nofun).cons ?_ (fun p => ?_) (.inl fun h => hq (congrArg some h))
        · rw [Stream.attrs, if_pos rfl]
        · rw [attrEnd, if_pos rfl]
      · refine (ih hq).cons ?_ (fun p => ?_) (.inr (.inl (Option.some_ne_none q)))
        · rw [Stream.attrs, if_neg hc]
        · rw [attrEnd, if_neg hc]
    | none =>
      by_cases hgt : c = gt
      · subst hgt
        exact .inr ⟨[], s, rfl, fun h => absurd rfl h, rfl, fun p => rfl⟩
      by_cases hquote : c = quote ∨ c = apos
      · have hslash : c ≠ slash := by
          rcases hquote with rfl | rfl <;> decide
        refine (ih (q := some c) fun h => hslash (Option.some.inj h)).cons ?_ (fun p => ?_)
          (.inl hslash)
        · rw [Stream.attrs, if_neg hgt, if_pos hquote]
        · rw [attrEnd, if_neg hgt, if_pos hquote]
      have hend : ∀ p, attrEnd none p (c :: s) = attrEnd none (p + 1) s := fun p => by
        rw [attrEnd, if_neg hgt, if_neg hquote]
      by_cases hslash : c = slash
      · subst hslash
        -- only a slash right before the `>` is read together with it
        by_cases hself : s.head? = some gt
        · obtain ⟨r, rfl⟩ := List.head?_eq_some_iff.mp hself
          exact .inr ⟨[slash], r, rfl, fun h => absurd rfl h, rfl, fun p => rfl⟩
        · refine (ih hq).cons ?_ hend (.inr (.inr hself))
          rw [Stream.attrs, if_neg hgt, if_neg hquote, if_pos rfl, if_neg hself]
      · refine (ih hq).cons ?_ hend (.inl hslash)
        rw [Stream.attrs, if_neg hgt, if_neg hquote, if_neg hslash]

section
variable (h : html.drop pos = lt :: s)
include h

theorem drop_succ : html.drop (pos + 1) = s := by
  rw [drop_at h, List.drop_one, List.tail_cons]

theorem closing_eq : closing html pos = (Stream.readTag s).closing := by
  rw [Stream.readTag_eq, closing, ← Nat.add_zero (pos + 1), getElem?_at (drop_succ h),
    List.head?_eq_getElem?]

theorem drop_nameStart : html.drop (nameStart html pos) = Stream.fromName s := by
  rw [nameStart, closing_eq h, Stream.readTag_eq, Stream.fromName]
  simp only [decide_eq_true_eq]
  split
  · rw [← List.drop_one, ← drop_at (drop_succ h)]
  · exact drop_succ h

theorem drop_nameEnd : html.drop (nameEnd html pos) = (Stream.fromName s).dropWhile isNameChar :=
  drop_scanWhile (drop_nameStart h) _

theorem tagName_eq : tagName html pos = (Stream.readTag s).tn := by
  have hlen : nameEnd html pos - nameStart html pos =
      ((Stream.fromName s).takeWhile isNameChar).length := by
    rw [nameEnd, scanWhile, drop_nameStart h, Nat.add_sub_cancel_left]
  have htake : (Stream.fromName s).take
      (if ((Stream.fromName s).takeWhile isNameChar).length ≥ 64 then 63
        else ((Stream.fromName s).takeWhile isNameChar).length) =
      ((Stream.fromName s).takeWhile isNameChar).take 63 := by
    conv =>
      rhs
      rw [← take_length_takeWhile, List.take_take]
    congr 1
    split <;> omega
  rw [tagName, hlen, drop_nameStart h, htake, Stream.readTag_eq]

/-- Before the attributes of an opening tag there is no slash. -/
theorem before_attrs (hopen : closing html pos = false) :
    html[nameEnd html pos - 1]? ≠ some slash := by
  rw [nameEnd, scanWhile, drop_nameStart h]
  cases hname : (Stream.fromName s).takeWhile isNameChar with
  | nil =>
    rw [List.length_nil, nameStart, if_neg (by rw [hopen]; decide), Nat.add_zero, Nat.add_sub_cancel,
      ← Nat.add_zero pos, getElem?_at h, List.getElem?_cons_zero]
    decide
  | cons c u =>
    have hlast : html[nameStart html pos + u.length]? = (c :: u)[u.length]? := by
      rw [getElem?_at (drop_nameStart h), ← hname, ← take_length_takeWhile, hname,
        List.getElem?_take_of_lt (by rw [List.length_cons]; omega)]
    rw [List.length_cons, show nameStart html pos + (u.length + 1) - 1 =
      nameStart html pos + u.length by omega, hlast]
    intro hslash
    have hmem : slash ∈ (Stream.fromName s).takeWhile isNameChar := by
      rw [hname]
      exact List.mem_of_getElem? hslash
    exact absurd (List.mem_takeWhile_imp hmem) (by decide)

/-- The tag ends at the end of the input, or both versions go on behind the same `>`. -/
theorem tagEnd_spec :
    (html.length ≤ tagEnd html pos ∧ (Stream.readTag s).self = false ∧
        (Stream.readTag s).rest = none) ∨
      (tagEnd html pos < html.length ∧
        (Stream.readTag s).rest = some (html.drop (tagEnd html pos + 1)) ∧
        (closing html pos = false →
          (Stream.readTag s).self = decide (html[tagEnd html pos - 1]? = some slash))) := by
  have hname := drop_nameEnd h
  have hbefore := before_attrs h
  have hattrs := attrs_split (q := none) nofun ((Stream.fromName s).dropWhile isNameChar)
  rw [Stream.readTag_eq, tagEnd, hname]
  generalize (Stream.fromName s).dropWhile isNameChar = s' at hname hattrs
  rcases hattrs with ⟨heof, hlen⟩ | ⟨u, r, rfl, -, hself, hlen⟩
  · refine .inl ⟨?_, by rw [heof], by rw [heof]⟩
    rw [hlen, ← hname, List.length_drop]
    omega
  · rw [hlen, hself]
    refine .inr ⟨?_, ?_, fun hopen => ?_⟩
    · rw [lt_length_iff hname, List.length_append, List.length_cons]
      omega
    · rw [Nat.add_assoc, drop_at hname, ← List.drop_drop, List.drop_left]
      rfl
    -- the byte before the `>` is the last one of the attributes, or of the name
    · refine decide_eq_decide.mpr ?_
      rcases List.eq_nil_or_concat' u with rfl | ⟨v, d, rfl⟩
      · simp only [List.getLast?_nil, reduceCtorEq, List.length_nil, Nat.add_zero,
          hbefore hopen]
      · rw [List.getLast?_concat, List.length_append, List.length_singleton, ← Nat.add_assoc,
          Nat.add_sub_cancel, getElem?_at hname, List.append_assoc, List.getElem?_append_right
          (Nat.le_refl _), Nat.sub_self]
        rfl

theorem readTag_meets
    (hclose : ∀ body t, (Stream.readTag s).skips → (Stream.readTag s).rest = some body →
      Search.behind tolower (Stream.closePat (Stream.readTag s).tn) body = some t → Unquoted t) :
    Meets html (readTag html pos) (Stream.afterTag (Stream.readTag s)) := by
  have hskips : (!closing html pos && !(decide (tagEnd html pos < html.length) &&
      decide (html[tagEnd html pos - 1]? = some slash)) &&
      skippedNames.contains (tagName html pos)) = (Stream.readTag s).skips := by
    rw [Stream.Tag.skips, closing_eq h, tagName_eq h]
    cases hclosing : (Stream.readTag s).closing with
    | true => rfl
    | false =>
      rcases tagEnd_spec h with ⟨hend, hself, -⟩ | ⟨hend, -, hself⟩
      · rw [hself, decide_eq_false (Nat.not_lt.mpr hend)]
        rfl
      · rw [hself ((closing_eq h).trans hclosing), decide_eq_true hend, Bool.true_and]
  have hnext : html.drop (if tagEnd html pos < html.length then tagEnd html pos + 1
      else tagEnd html pos) = (Stream.readTag s).rest.getD [] := by
    rcases tagEnd_spec h with ⟨hend, -, hrest⟩ | ⟨hend, hrest, -⟩
    · rw [if_neg (Nat.not_lt.mpr hend), hrest, List.drop_of_length_le hend]
      rfl
    · rw [if_pos hend, hrest]
      rfl
  rw [readTag, Stream.afterTag]
  simp only [hskips]
  split
  · next hskip =>
    refine ⟨rfl, ?_⟩
    rw [drop_skipUntilClose hnext, tagName_eq h]
    · cases hrest : (Stream.readTag s).rest with
      | none => rfl
      | some body => rfl
    · intro t ht
      rw [tagName_eq h] at ht
      cases hrest : (Stream.readTag s).rest with
      | none =>
        rw [hrest, Option.getD_none, Search.behind, List.map_nil, Search.find,
          if_neg (show Stream.closePat _ ≠ [] from List.cons_ne_nil _ _)] at ht
        cases ht
      | some body =>
        rw [hrest, Option.getD_some] at ht
        exact hclose body t hskip hrest ht
  · exact ⟨by rw [tagName_eq h], hnext⟩

/-- The test for the start of a comment. -/
theorem comment_iff : (pos + 3 < html.length ∧ html[pos + 1]? = some 0x21 ∧
    html[pos + 2]? = some minus ∧ html[pos + 3]? = some minus) ↔ [0x21, minus, minus] <+: s := by
  have hs := drop_succ h
  have h0 : html[pos + 1 + 0]? = s[0]? := getElem?_at hs 0
  have h1 : html[pos + 1 + 1]? = s[1]? := getElem?_at hs 1
  have h2 : html[pos + 1 + 2]? = s[2]? := getElem?_at hs 2
  rw [Nat.add_zero] at h0
  rw [Nat.add_assoc] at h1 h2
  rw [h0, h1, h2, show pos + 3 = pos + 1 + 2 from rfl, lt_length_iff hs]
  constructor
  · rintro ⟨-, h0, h1, h2⟩
    rcases s with _ | ⟨a, _ | ⟨b, _ | ⟨c, s⟩⟩⟩
    · cases h0
    · cases h1
    · cases h2
    · cases h0
      cases h1
      cases h2
      exact List.prefix_append [0x21, minus, minus] s
  · rintro ⟨s, rfl⟩
    exact ⟨by simp, rfl, rfl, rfl⟩

/-- Comments, declarations and tags. -/
theorem handleTag_meets
    (hclose : ∀ body t, (Stream.readTag s).skips → (Stream.readTag s).rest = some body →
      Search.behind tolower (Stream.closePat (Stream.readTag s).tn) body = some t → Unquoted t) :
    Meets html (handleTag html pos) (Stream.handleTag s) := by
  have hs := drop_succ h
  have hdecl : html[pos + 1]? = some 0x21 ∨ html[pos + 1]? = some 0x3F ↔
      s.head? = some 0x21 ∨ s.head? = some 0x3F := by
    rw [← Nat.add_zero (pos + 1), getElem?_at hs, List.head?_eq_getElem?]
  rw [handleTag]
  -- a comment, a declaration (a single `<!-` is one in both versions), or a tag
  by_cases hc : [0x21, minus, minus] <+: s
  · obtain ⟨s, rfl⟩ := hc
    have hfind := findCi_eq (drop_at hs 3) [minus, minus, gt]
    rw [if_pos ((comment_iff h).mpr (List.prefix_append _ s))]
    change _ = Search.behind tolower Stream.commentEnd s at hfind
    change Meets html _ ([], Stream.skipComment 0 0 s)
    rw [Stream.skipComment_start, ← hfind, show pos + 4 = pos + 1 + 3 from rfl]
    cases findCi html (pos + 1 + 3) [minus, minus, gt] with
    | none => exact ⟨rfl, List.drop_length⟩
    | some idx => exact ⟨rfl, rfl⟩
  rw [if_neg (mt (comment_iff h).mp hc)]
  by_cases hd : s.head? = some 0x21 ∨ s.head? = some 0x3F
  · rw [if_pos (hdecl.mpr hd)]
    obtain ⟨c, s, rfl⟩ : ∃ c s', s = c :: s' := by
      cases s with
      | nil => simp at hd
      | cons c s => exact ⟨c, s, rfl⟩
    simp only [List.head?_cons, Option.some.injEq] at hd
    have hgt : c ≠ gt := by
      rcases hd with rfl | rfl <;> decide
    rw [Stream.handleTag_decl (hd.imp_left fun h => ⟨h, fun hs => hc ?_⟩)]
    · refine ⟨rfl, ?_⟩
      rw [drop_pastGt hs, Stream.skipDecl_getD, List.dropWhile_cons_of_pos (by simpa using hgt)]
    · rw [h]
      exact List.cons_prefix_cons.mpr ⟨rfl, hs⟩
  · rw [if_neg (mt hdecl.mp hd), Stream.handleTag_tag (fun h => hd (.inl h)) fun h => hd (.inr h)]
    exact readTag_meets h hclose
end

end H2t.Whole
