import ZteWifi.Text.Room

/-!
# Spaces in the lines that are written

`append_space` looks at the last byte of the line before it calls `append_byte`, which may break the
line first.  On a full line without a space nothing is kept, and the space becomes the first byte of
the next line.
-/

open Ascii

namespace LineBuf

/-! ## 1. Trimmed lines -/

/-- No spaces at either end, and none beside another. -/
structure Trimmed (l : Line) : Prop where
  nonempty : l ≠ []
  first : l.head? ≠ some space
  last : l.getLast? ≠ some space
  single : ¬ [space, space] <:+: l

/-- The same of a line that is still being filled. -/
structure Tidy (l : Line) : Prop where
  first : l.head? ≠ some space
  single : ¬ [space, space] <:+: l

/-- A line that begins with a space and text. -/
def Loose (l : Line) : Prop := ∃ c w, l = space :: c :: w ∧ c ≠ space

/-- A line of which nothing is kept when it is broken. -/
def Full (l : Line) : Prop := maxLine ≤ l.length ∧ space ∉ l

theorem Tidy.nil : Tidy [] := ⟨nofun, by decide⟩

theorem single_of_notMem {l : Line} (h : space ∉ l) : ¬ [space, space] <:+: l :=
  fun hsub => h (hsub.subset List.mem_cons_self)

theorem tidy_of_notMem {l : Line} (h : space ∉ l) : Tidy l :=
  ⟨fun hfirst => h (List.mem_of_head? hfirst), single_of_notMem h⟩

theorem trimmed_of_notMem {l : Line} (hne : l ≠ []) (h : space ∉ l) : Trimmed l :=
  ⟨hne, fun hfirst => h (List.mem_of_head? hfirst), fun hlast => h (List.mem_of_getLast? hlast),
    single_of_notMem h⟩

theorem not_trimmed_of_prefix {l m : Line} (h : l.head? = some space) (hm : m <+: l) :
    ¬ Trimmed m := by
  intro htrim
  obtain ⟨c, m, rfl⟩ := List.exists_cons_of_ne_nil htrim.nonempty
  obtain ⟨r, rfl⟩ := hm
  exact htrim.first h

/-- A line without spaces at its end stays as it is. -/
theorem rdropWhile_of_last {l : Line} (h : l.getLast? ≠ some space) :
    l.rdropWhile (· = space) = l := by
  rw [List.rdropWhile_eq_self_iff]
  intro hne
  rw [List.getLast?_eq_getLast_of_ne_nil hne] at h
  simpa using h

theorem Tidy.of_prefix {l m : Line} (h : Tidy l) (hm : m <+: l) : Tidy m := by
  obtain ⟨r, rfl⟩ := hm
  refine ⟨fun hfirst => h.first ?_,
    fun hsub => h.single (hsub.trans (List.prefix_append m r).isInfix)⟩
  rw [List.head?_append, hfirst]
  rfl

/-- What stands before a single space has none at its end. -/
theorem Tidy.last_of_append {p q : Line} (h : Tidy (p ++ space :: q)) :
    p.getLast? ≠ some space := by
  intro hlast
  obtain ⟨p, rfl⟩ := List.getLast?_eq_some_iff.mp hlast
  refine h.single ⟨p, q, ?_⟩
  simp only [List.append_assoc, List.cons_append, List.nil_append]

/-- Two spaces that a byte brings about are the byte and the one before it. -/
theorem single_append {l : Line} (h : ¬ [space, space] <:+: l) {c : UInt8}
    (hc : c = space → l.getLast? ≠ some space) : ¬ [space, space] <:+: l ++ [c] := by
  intro hsub
  -- they end the new line, or stood in the old one
  rcases List.infix_concat_iff.mp hsub with ⟨p, hp⟩ | hsub
  · rw [show [space, space] = [space] ++ [space] from rfl, ← List.append_assoc] at hp
    obtain ⟨rfl, hcs⟩ := List.append_inj' hp rfl
    exact hc (List.singleton_inj.mp hcs).symm List.getLast?_concat
  · exact h hsub

theorem Tidy.append_text {l : Line} (h : Tidy l) {c : UInt8} (hc : c ≠ space) :
    Tidy (l ++ [c]) := by
  refine ⟨?_, single_append h.single fun heq => absurd heq hc⟩
  cases l with
  | nil => exact fun hfirst => hc (Option.some.inj hfirst)
  | cons d l => exact h.first

theorem Tidy.append_space {l : Line} (h : Tidy l) (hne : l ≠ []) (hlast : l.getLast? ≠ some space) :
    Tidy (l ++ [space]) := by
  refine ⟨?_, single_append h.single fun _ => hlast⟩
  cases l with
  | nil => exact absurd rfl hne
  | cons d l => exact h.first

/-! ## 2. Breaking a line -/

theorem Tidy.wrap {l : Line} (h : Tidy l) (hne : l ≠ []) :
    Trimmed (breakLine l).1 ∧ Tidy (breakLine l).2 := by
  rcases breakLine_cases l with ⟨hspace, heq⟩ | ⟨p, q, rfl, hq, heq⟩
  · rw [heq]
    exact ⟨trimmed_of_notMem hne hspace, .nil⟩
  · have hlast := h.last_of_append
    have hp := h.of_prefix (List.prefix_append p _)
    -- the space at which the line is broken is not its first byte
    have hpne : p ≠ [] := by
      rintro rfl
      exact h.first rfl
    rw [heq, rdropWhile_of_last hlast]
    exact ⟨⟨hpne, hp.first, hlast, hp.single⟩, tidy_of_notMem hq⟩

theorem written_isPrefix (l : Line) : (breakLine l).1 <+: l := by
  rcases breakLine_cases l with ⟨-, heq⟩ | ⟨p, q, rfl, -, heq⟩
  · have hall : (breakLine l).1 = l := by rw [heq]
    exact ⟨[], by rw [hall, List.append_nil]⟩
  · rw [heq]
    exact (List.rdropWhile_prefix _ p).trans (List.prefix_append p _)

theorem Loose.head {l : Line} (h : Loose l) : l.head? = some space := by
  obtain ⟨c, w, rfl, -⟩ := h
  rfl

theorem Loose.append {l : Line} (h : Loose l) (u : List UInt8) : Loose (l ++ u) := by
  obtain ⟨c, w, rfl, hc⟩ := h
  exact ⟨c, w ++ u, rfl, hc⟩

/-- The line that is written of a tidy line is trimmed. -/
theorem Tidy.flushLines {l : Line} (h : Tidy l) : ∀ m ∈ flushLines l, Trimmed m := by
  unfold LineBuf.flushLines
  split
  · exact List.forall_mem_nil _
  · next hne =>
    rw [List.forall_mem_singleton]
    have hpre := h.of_prefix (List.rdropWhile_prefix (fun c => decide (c = space)) l)
    refine ⟨hne, hpre.first, fun hlast => ?_, hpre.single⟩
    have hend := List.rdropWhile_last_not (fun c => decide (c = space)) l hne
    rw [List.getLast?_eq_getLast_of_ne_nil hne] at hlast
    exact hend (by simpa using hlast)

theorem Loose.flushLines {l : Line} (h : Loose l) : ∃ m ∈ flushLines l, ¬ Trimmed m := by
  have hne : l.rdropWhile (· = space) ≠ [] := by
    obtain ⟨c, w, rfl, hc⟩ := h
    intro hnil
    have hall := List.rdropWhile_eq_nil_iff.mp hnil c (List.mem_cons_of_mem _ List.mem_cons_self)
    exact hc (by simpa using hall)
  unfold LineBuf.flushLines
  rw [if_neg hne]
  exact ⟨_, List.mem_cons_self, not_trimmed_of_prefix h.head (List.rdropWhile_prefix _ l)⟩

/-! ## 3. Calls that append text -/

/-- A call that appends bytes other than spaces. -/
def Cmd.isText : Cmd → Bool
  | .byte c | .raw c => c ≠ Ascii.space
  | .lead n c => n ≤ 4 && c ≠ Ascii.space
  | .str s => s ≠ [] && !s.contains Ascii.space
  | .utf8 cp => !(utf8Bytes cp).contains Ascii.space
  | .space | .indent _ | .flush => false

/-- A relation between a line, the lines that are written of it and the line that is left, which the
steps of such calls keep. -/
structure StepClosed (R : Line → List Line → Line → Prop) : Prop where
  refl : ∀ l, R l [] l
  trans : ∀ {l l' l'' ls ms}, R l ls l' → R l' ms l'' → R l (ls ++ ms) l''
  wrap : ∀ l, l ≠ [] → R l [(breakLine l).1] (breakLine l).2
  put : ∀ l c, c ≠ space → R l [] (l ++ [c])

namespace StepClosed

variable {R : Line → List Line → Line → Prop} (hR : StepClosed R)
include hR

theorem reserve {n : Nat} (hn : n ≤ 4) (b : LineBuf) :
    R b.line (roomLines n b.line) (reserve n b).line := by
  unfold roomLines LineBuf.reserve
  split
  · next hfull =>
    rw [wrapLine_eq]
    refine hR.wrap b.line ?_
    intro hnil
    rw [hnil, List.length_nil] at hfull
    simp only [maxLine] at hfull
    omega
  · exact hR.refl _

theorem appendByteNc {c : UInt8} (hc : c ≠ space) (b : LineBuf) :
    R b.line [] (appendByteNc c b).line := by
  unfold LineBuf.appendByteNc
  split
  · exact hR.refl _
  · exact hR.put _ c hc

theorem appendAllNc {cs : List UInt8} (hcs : space ∉ cs) (b : LineBuf) :
    R b.line [] (appendAllNc cs b).line := by
  induction cs generalizing b with
  | nil => exact hR.refl _
  | cons c cs ih =>
    rw [List.mem_cons, not_or] at hcs
    exact hR.trans (hR.appendByteNc (Ne.symm hcs.1) b) (ih hcs.2 _)

theorem lead {n : Nat} (hn : n ≤ 4) {c : UInt8} (hc : c ≠ space) (b : LineBuf) :
    R b.line (roomLines n b.line) (LineBuf.appendByteNc c (LineBuf.reserve n b)).line := by
  have h := hR.trans (hR.reserve hn b) (hR.appendByteNc hc _)
  rwa [List.append_nil] at h

theorem appendStrLoop {s : List UInt8} (hs : space ∉ s) (n : Nat) (b : LineBuf) :
    R b.line (strLines n s b) (appendStrLoop n s b).line := by
  induction s generalizing n b with
  | nil => cases n <;> exact hR.refl _
  | cons c s ih =>
    rw [List.mem_cons, not_or] at hs
    cases n with
    | succ n => exact hR.trans (hR.appendByteNc (Ne.symm hs.1) b) (ih hs.2 _ _)
    | zero =>
      rw [strLines, LineBuf.appendStrLoop]
      split
      · rw [appendByte_eq]
        exact hR.trans (hR.lead (by decide) (Ne.symm hs.1) b) (ih hs.2 _ _)
      · exact hR.trans (hR.lead (utf8CharLen_le c) (Ne.symm hs.1) b) (ih hs.2 _ _)

theorem exec {c : Cmd} (hc : c.isText = true) (b : LineBuf) :
    R b.line (lines c b) (exec c b).line := by
  cases c with
  | byte c =>
    show R b.line (roomLines 1 b.line) (appendByte c b).line
    rw [appendByte_eq]
    exact hR.lead (by decide) (by simpa [Cmd.isText] using hc) b
  | raw c => exact hR.appendByteNc (by simpa [Cmd.isText] using hc) b
  | lead n c =>
    simp only [Cmd.isText, Bool.and_eq_true, decide_eq_true_eq] at hc
    exact hR.lead hc.1 hc.2 b
  | str s =>
    simp only [Cmd.isText, Bool.and_eq_true, Bool.not_eq_true', List.contains_eq_mem,
      decide_eq_false_iff_not] at hc
    exact hR.appendStrLoop hc.2 0 b
  | utf8 cp =>
    simp only [Cmd.isText, Bool.not_eq_true', List.contains_eq_mem, decide_eq_false_iff_not] at hc
    have hlen : (utf8Bytes cp).length ≤ 4 := by
      obtain ⟨d, cs, heq, hle, -⟩ := utf8Bytes_cons cp
      rw [heq, List.length_cons]
      exact Nat.succ_le_succ hle
    have h := hR.trans (hR.reserve hlen b) (hR.appendAllNc hc _)
    rwa [List.append_nil] at h
  | space | indent | flush => cases hc

/-- Behind a single space such a call first appends one byte. -/
theorem exec_space {c : Cmd} (hc : c.isText = true) {b : LineBuf} (hb : b.line = [space]) :
    ∃ d, d ≠ space ∧ R [space, d] (lines c b) (LineBuf.exec c b).line := by
  have hroom {n : Nat} (hn : n ≤ 4) : roomLines n b.line = [] ∧ LineBuf.reserve n b = b := by
    have hlen : ¬ b.line.length + n > maxLine := by
      rw [hb, List.length_singleton]
      simp only [maxLine]
      omega
    exact ⟨if_neg hlen, if_neg hlen⟩
  have hput (d : UInt8) : (LineBuf.appendByteNc d b).line = [space, d] := by
    rw [appendByteNc_eq (by rw [hb]; decide), hb]
    rfl
  cases c with
  | byte c =>
    refine ⟨c, by simpa [Cmd.isText] using hc, ?_⟩
    show R _ (roomLines 1 b.line) (appendByte c b).line
    rw [appendByte_eq, (hroom (by decide)).1, (hroom (by decide)).2, hput]
    exact hR.refl _
  | raw c =>
    refine ⟨c, by simpa [Cmd.isText] using hc, ?_⟩
    show R _ [] (LineBuf.appendByteNc c b).line
    rw [hput]
    exact hR.refl _
  | lead n c =>
    simp only [Cmd.isText, Bool.and_eq_true, decide_eq_true_eq] at hc
    refine ⟨c, hc.2, ?_⟩
    show R _ (roomLines n b.line) (LineBuf.appendByteNc c (LineBuf.reserve n b)).line
    rw [(hroom hc.1).1, (hroom hc.1).2, hput]
    exact hR.refl _
  | str s =>
    simp only [Cmd.isText, Bool.and_eq_true, Bool.not_eq_true', List.contains_eq_mem,
      decide_eq_false_iff_not, decide_eq_true_eq] at hc
    obtain ⟨d, s, rfl⟩ := List.exists_cons_of_ne_nil hc.1
    have hs := hc.2
    rw [List.mem_cons, not_or] at hs
    refine ⟨d, Ne.symm hs.1, ?_⟩
    show R _ (strLines 0 (d :: s) b) (LineBuf.appendStrLoop 0 (d :: s) b).line
    rw [strLines, LineBuf.appendStrLoop, ← hput d]
    split
    · rw [appendByte_eq, (hroom (by decide)).1, (hroom (by decide)).2]
      exact hR.appendStrLoop hs.2 _ _
    · rw [(hroom (utf8CharLen_le d)).1, (hroom (utf8CharLen_le d)).2]
      exact hR.appendStrLoop hs.2 _ _
  | utf8 cp =>
    simp only [Cmd.isText, Bool.not_eq_true', List.contains_eq_mem, decide_eq_false_iff_not] at hc
    obtain ⟨d, cs, heq, hle, -⟩ := utf8Bytes_cons cp
    rw [heq, List.mem_cons, not_or] at hc
    refine ⟨d, Ne.symm hc.1, ?_⟩
    show R _ (roomLines (utf8Bytes cp).length b.line)
      (LineBuf.appendAllNc (utf8Bytes cp) (LineBuf.reserve (utf8Bytes cp).length b)).line
    have hlen : (d :: cs).length ≤ 4 := Nat.succ_le_succ hle
    rw [heq, (hroom hlen).1, (hroom hlen).2, ← hput d]
    exact hR.appendAllNc hc.2 _
  | space | indent | flush => cases hc

end StepClosed

theorem stepClosed_tidy :
    StepClosed fun l ls l' => Tidy l → (∀ m ∈ ls, Trimmed m) ∧ Tidy l' where
  refl _ h := ⟨List.forall_mem_nil _, h⟩
  trans h h' htidy := by
    obtain ⟨hls, hmid⟩ := h htidy
    obtain ⟨hms, hend⟩ := h' hmid
    exact ⟨List.forall_mem_append.mpr ⟨hls, hms⟩, hend⟩
  wrap l hne h := by
    rw [List.forall_mem_singleton]
    exact h.wrap hne
  put _ _ hc h := ⟨List.forall_mem_nil _, h.append_text hc⟩

theorem stepClosed_loose :
    StepClosed fun l ls l' => Loose l → (∃ m ∈ ls, ¬ Trimmed m) ∨ Loose l' where
  refl _ h := .inr h
  trans h h' hloose := by
    rcases h hloose with ⟨m, hm, hbad⟩ | hmid
    · exact .inl ⟨m, List.mem_append_left _ hm, hbad⟩
    rcases h' hmid with ⟨m, hm, hbad⟩ | hend
    · exact .inl ⟨m, List.mem_append_right _ hm, hbad⟩
    · exact .inr hend
  wrap l _ h :=
    .inl ⟨_, List.mem_cons_self, not_trimmed_of_prefix h.head (written_isPrefix l)⟩
  put _ _ _ h := .inr (h.append _)

/-! ## 4. Spaces -/

theorem Full.ne_nil {l : Line} (h : Full l) : l ≠ [] := by
  rintro rfl
  exact absurd h.1 (by decide)

theorem Full.last {l : Line} (h : Full l) : l.getLast? ≠ some space :=
  fun hlast => h.2 (List.mem_of_getLast? hlast)

/-- On a full line without a space the space becomes the first byte of the next line. -/
theorem Full.exec_space {b : LineBuf} (h : Full b.line) :
    lines .space b = [b.line] ∧ (exec .space b).line = [space] := by
  have hcond : b.line ≠ [] ∧ b.line.getLast? ≠ some space := ⟨h.ne_nil, h.last⟩
  have hroom : b.line.length + 1 > maxLine := Nat.lt_succ_of_le h.1
  have hbreak := breakLine_of_notMem h.2
  constructor
  · rw [lines, if_pos hcond, roomLines, if_pos hroom, hbreak]
  · show (appendSpace b).line = _
    rw [appendSpace, if_pos hcond, appendByte_eq, reserve, if_pos hroom, wrapLine_eq, hbreak]
    rfl

/-- Every other line stays tidy. -/
theorem Tidy.exec_space {b : LineBuf} (h : Tidy b.line) (hfull : ¬ Full b.line) :
    (∀ m ∈ lines .space b, Trimmed m) ∧ Tidy (exec .space b).line := by
  show _ ∧ Tidy (appendSpace b).line
  rw [lines, appendSpace]
  by_cases hcond : b.line ≠ [] ∧ b.line.getLast? ≠ some space
  swap
  · rw [if_neg hcond, if_neg hcond]
    exact ⟨List.forall_mem_nil _, h⟩
  have hput (b' : LineBuf) (htidy : Tidy b'.line) (hne : b'.line ≠ [])
      (hlast : b'.line.getLast? ≠ some space) : Tidy (appendByteNc space b').line := by
    unfold appendByteNc
    split
    · exact htidy
    · exact htidy.append_space hne hlast
  rw [if_pos hcond, if_pos hcond, appendByte_eq, roomLines, reserve]
  by_cases hroom : b.line.length + 1 > maxLine
  swap
  · rw [if_neg hroom, if_neg hroom]
    exact ⟨List.forall_mem_nil _, hput b h hcond.1 hcond.2⟩
  rw [if_pos hroom, if_pos hroom, wrapLine_eq, List.forall_mem_singleton]
  obtain ⟨hwritten, hkept⟩ := h.wrap hcond.1
  refine ⟨hwritten, hput _ hkept ?_ ?_⟩
  -- the line has a space, and it is not the last byte
  · rcases breakLine_cases b.line with ⟨hspace, -⟩ | ⟨p, q, hline, -, heq⟩
    · exact absurd ⟨Nat.le_of_lt_succ hroom, hspace⟩ hfull
    · rw [heq]
      show q ≠ []
      rintro rfl
      refine hcond.2 ?_
      rw [hline, List.getLast?_concat]
  · exact fun hlast => space_notMem_kept b.line (List.mem_of_getLast? hlast)

/-- A line of one space is given up by `flush_line`, and `append_space` leaves it as it is. -/
theorem exec_of_space {b : LineBuf} (hb : b.line = [space]) :
    lines .space b = [] ∧ exec .space b = b ∧ lines .flush b = [] := by
  have hcond : ¬ (b.line ≠ [] ∧ b.line.getLast? ≠ some space) := by
    rw [hb]
    decide
  refine ⟨if_neg hcond, if_neg hcond, ?_⟩
  rw [lines, hb]
  rfl

theorem Loose.exec_space {b : LineBuf} (h : Loose b.line) :
    (∃ m ∈ lines .space b, ¬ Trimmed m) ∨ Loose (exec .space b).line := by
  show _ ∨ Loose (appendSpace b).line
  rw [lines, appendSpace]
  split
  swap
  · exact .inr h
  rw [appendByte_eq, roomLines, reserve]
  split
  · exact .inl ⟨_, List.mem_cons_self, not_trimmed_of_prefix h.head (written_isPrefix b.line)⟩
  · right
    unfold appendByteNc
    split
    · exact h
    · exact h.append _

/-! ## 5. The lines of a run -/

/-- The calls of a converter without indentation. -/
def Cmd.Flows (c : Cmd) : Prop := c.isText = true ∨ c = .space ∨ c = .flush

/-- Where `append_space` is called on a full line without a space, the line is given up before text
follows. -/
def Folds (cs : List Cmd) (b : LineBuf) : Prop :=
  ∀ pre post, cs = pre ++ .space :: post → Full (execAll pre b).line →
    (post.dropWhile (· = .space)).head? = some .flush

theorem Folds.tail {c : Cmd} {cs : List Cmd} {b : LineBuf} (h : Folds (c :: cs) b) :
    Folds cs (exec c b) := by
  rintro pre post rfl hfull
  exact h (c :: pre) post rfl hfull

theorem Cmd.isText_ne {c : Cmd} (h : c.isText = true) : c ≠ .space ∧ c ≠ .flush := by
  constructor
  · rintro rfl
    exact Bool.noConfusion h
  · rintro rfl
    exact Bool.noConfusion h

theorem dropWhile_text {c : Cmd} (hc : c ≠ .space) (cs : List Cmd) :
    (c :: cs).dropWhile (· = .space) = c :: cs :=
  List.dropWhile_cons_of_neg (by simpa using hc)

theorem dropWhile_space (cs : List Cmd) :
    (Cmd.space :: cs).dropWhile (· = .space) = cs.dropWhile (· = .space) :=
  List.dropWhile_cons_of_pos rfl

/-- Tidy lines are written as trimmed ones, also where the line is one space that is given up. -/
theorem trimmed_of_folds {cs : List Cmd} (hcs : ∀ c ∈ cs, c.Flows) {b : LineBuf}
    (hline : Tidy b.line ∨
      b.line = [space] ∧ (cs.dropWhile (· = .space)).head? = some .flush)
    (h : Folds cs b) : ∀ m ∈ linesAll cs b, Trimmed m := by
  induction cs generalizing b with
  | nil => exact List.forall_mem_nil _
  | cons c cs ih =>
    obtain ⟨hc, hrest⟩ := List.forall_mem_cons.mp hcs
    rw [linesAll, List.forall_mem_append]
    have hflush : Tidy (exec .flush b).line := by
      show Tidy (flushLine b).line
      rw [flushLine_line]
      exact .nil
    -- a line of one space is left by the next `flush_line` only, since no text comes before it
    rcases hline with htidy | ⟨hspace, hnext⟩
    · rcases hc with htext | rfl | rfl
      · obtain ⟨hlines, hkept⟩ := stepClosed_tidy.exec htext b htidy
        exact ⟨hlines, ih hrest (.inl hkept) h.tail⟩
      · by_cases hfull : Full b.line
        · obtain ⟨hlines, hkept⟩ := hfull.exec_space
          rw [hlines, List.forall_mem_singleton]
          exact ⟨trimmed_of_notMem hfull.ne_nil hfull.2,
            ih hrest (.inr ⟨hkept, h [] cs rfl hfull⟩) h.tail⟩
        · obtain ⟨hlines, hkept⟩ := htidy.exec_space hfull
          exact ⟨hlines, ih hrest (.inl hkept) h.tail⟩
      · exact ⟨htidy.flushLines, ih hrest (.inl hflush) h.tail⟩
    · obtain ⟨hnone, hsame, hgone⟩ := exec_of_space hspace
      rcases hc with htext | rfl | rfl
      · have hne := Cmd.isText_ne htext
        rw [dropWhile_text hne.1] at hnext
        exact absurd (Option.some.inj hnext) hne.2
      · rw [dropWhile_space] at hnext
        have htail := h.tail
        rw [hsame] at htail
        rw [hnone, hsame]
        exact ⟨List.forall_mem_nil _, ih hrest (.inr ⟨hspace, hnext⟩) htail⟩
      · rw [hgone]
        exact ⟨List.forall_mem_nil _, ih hrest (.inl hflush) h.tail⟩

/-- A line that begins with a space and text is written in the end. -/
theorem Loose.linesAll {cs : List Cmd} (hcs : ∀ c ∈ cs, c.Flows) {b : LineBuf} (h : Loose b.line) :
    ∃ m ∈ linesAll (cs ++ [.flush]) b, ¬ Trimmed m := by
  induction cs generalizing b with
  | nil =>
    obtain ⟨m, hm, hbad⟩ := h.flushLines
    exact ⟨m, List.mem_append_left _ hm, hbad⟩
  | cons c cs ih =>
    obtain ⟨hc, hrest⟩ := List.forall_mem_cons.mp hcs
    have hstep : (∃ m ∈ lines c b, ¬ Trimmed m) ∨ Loose (exec c b).line := by
      rcases hc with htext | rfl | rfl
      · exact stepClosed_loose.exec htext b h
      · exact h.exec_space
      · exact .inl h.flushLines
    rw [List.cons_append, LineBuf.linesAll]
    rcases hstep with ⟨m, hm, hbad⟩ | hloose
    · exact ⟨m, List.mem_append_left _ hm, hbad⟩
    · obtain ⟨m, hm, hbad⟩ := ih hrest hloose
      exact ⟨m, List.mem_append_right _ hm, hbad⟩

/-- Text behind a line of one space. -/
theorem not_trimmed_of_space {cs : List Cmd} (hcs : ∀ c ∈ cs, c.Flows) {b : LineBuf}
    (hb : b.line = [space])
    (hnext : ((cs ++ [Cmd.flush]).dropWhile (· = .space)).head? ≠ some .flush) :
    ∃ m ∈ linesAll (cs ++ [.flush]) b, ¬ Trimmed m := by
  induction cs generalizing b with
  | nil => exact absurd rfl hnext
  | cons c cs ih =>
    obtain ⟨hc, hrest⟩ := List.forall_mem_cons.mp hcs
    rw [List.cons_append] at hnext ⊢
    rw [linesAll]
    rcases hc with htext | rfl | rfl
    -- text makes the line loose, and a loose line is written untrimmed
    · obtain ⟨d, hd, hstep⟩ := stepClosed_loose.exec_space htext hb
      rcases hstep ⟨d, [], rfl, hd⟩ with ⟨m, hm, hbad⟩ | hloose
      · exact ⟨m, List.mem_append_left _ hm, hbad⟩
      · obtain ⟨m, hm, hbad⟩ := hloose.linesAll hrest
        exact ⟨m, List.mem_append_right _ hm, hbad⟩
    · obtain ⟨hnone, hsame, -⟩ := exec_of_space hb
      rw [dropWhile_space] at hnext
      rw [hnone, hsame]
      exact ih hrest hb hnext
    · exact absurd (by rw [dropWhile_text (by decide)]; rfl) hnext

/-- The lines of a run are trimmed exactly if no text follows a space on a full line. -/
theorem trimmed_iff_folds {cs : List Cmd} (hcs : ∀ c ∈ cs, c.Flows) :
    (∀ m ∈ linesAll (cs ++ [.flush]) .empty, Trimmed m) ↔ Folds (cs ++ [.flush]) .empty := by
  constructor
  · intro htrim pre post heq hfull
    by_contra hnext
    obtain ⟨hlines, hspace⟩ := hfull.exec_space
    -- the run ends with `flush_line`
    obtain ⟨ds, rfl, rfl⟩ : ∃ ds, cs = pre ++ .space :: ds ∧ post = ds ++ [.flush] := by
      rcases List.eq_nil_or_concat post with rfl | ⟨ds, c, rfl⟩
      · exact absurd (List.singleton_inj.mp (List.append_inj' heq rfl).2) (by decide)
      · rw [List.concat_eq_append, ← List.cons_append, ← List.append_assoc] at heq
        obtain ⟨hcs, hlast⟩ := List.append_inj' heq rfl
        rw [List.concat_eq_append, ← List.singleton_inj.mp hlast]
        exact ⟨ds, hcs, rfl⟩
    obtain ⟨m, hm, hbad⟩ := not_trimmed_of_space
      (fun c hc => hcs c (List.mem_append_right _ (List.mem_cons_of_mem _ hc))) hspace hnext
    refine hbad (htrim m ?_)
    rw [heq, linesAll_append, linesAll]
    exact List.mem_append_right _ (List.mem_append_right _ hm)
  · refine trimmed_of_folds (fun c hc => ?_) (.inl .nil)
    rcases List.mem_append.mp hc with hc | hc
    · exact hcs c hc
    · exact .inr (.inr (List.mem_singleton.mp hc))

end LineBuf
