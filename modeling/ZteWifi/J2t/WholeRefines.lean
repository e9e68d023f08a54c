import Mathlib.Tactic.SplitIfs
import ZteWifi.J2t.Trace
import ZteWifi.J2t.Whole

/-!
# `j2t非流式.c` refines the abstract machine

The cursor `p` is related to the unread bytes `buf.drop p`.  The one place where the two programs
differ is a `\u` escape after a high surrogate whose digits are bad: here it is left for the next
round of the string loop, which then fails.
-/

open Ascii LineBuf

namespace J2t.Whole

variable (buf : List UInt8)

structure Refines (s : St) (t : Trace.St) : Prop where
  content : buf.drop s.p = t.rest
  out : s.out = execAll t.cmds .empty

/-- What is left of the relation after an error: nothing more is read. -/
def Failed (s : St) (t : Trace.St) : Prop := s.out = execAll t.cmds .empty

/-! ## 1. What the index scans compute -/

variable {buf}

@[simp] theorem advance_bind {β : Type} (n : Nat) (k : Unit → Prog St β) (s : St) :
    (advance n >>= k) s = k () { s with p := s.p + n } := rfl

@[simp] theorem out_bind {β : Type} (c : Cmd) (k : Unit → Prog St β) (s : St) :
    (out c >>= k) s = k () { s with out := exec c s.out } := rfl

@[simp] theorem cur_bind {β : Type} (k : Option UInt8 → Prog St β) (s : St) :
    (cur buf >>= k) s = k buf[s.p]? s := rfl

theorem getElem?_eq_head? (p : Nat) : buf[p]? = (buf.drop p).head? := List.head?_drop.symm

theorem drop_succ_of_drop {p : Nat} {c : UInt8} {cs : List UInt8} (h : buf.drop p = c :: cs) :
    buf.drop (p + 1) = cs := by
  rw [← List.tail_drop, h, List.tail_cons]

theorem drop_skipWsFrom (n p : Nat) (hn : buf.length ≤ p + n) :
    buf.drop (skipWsFrom buf n p) = (buf.drop p).dropWhile isspace := by
  induction n generalizing p with
  | zero =>
    rw [skipWsFrom, List.drop_eq_nil_of_le (by omega)]
    rfl
  | succ n ih =>
    rw [skipWsFrom, getElem?_eq_head?]
    rcases hc : buf.drop p with _ | ⟨c, cs⟩
    · rw [List.head?_nil]
      exact hc
    · by_cases hsp : isspace c = true
      · simp only [List.head?_cons, hsp, if_true]
        rw [ih (p + 1) (by omega), drop_succ_of_drop hc, List.dropWhile_cons_of_pos hsp]
      · simp only [List.head?_cons, hsp, Bool.false_eq_true, if_false]
        rw [hc, List.dropWhile_cons_of_neg hsp]

theorem drop_numberEnd (n p : Nat) (hn : buf.length ≤ p + n) :
    p ≤ numberEnd buf n p ∧
      (buf.drop p).take (numberEnd buf n p - p) = (buf.drop p).takeWhile isNumChar ∧
      buf.drop (numberEnd buf n p) = (buf.drop p).dropWhile isNumChar := by
  induction n generalizing p with
  | zero =>
    rw [numberEnd, List.drop_eq_nil_of_le (by omega), List.take_nil]
    exact ⟨Nat.le_refl _, rfl, rfl⟩
  | succ n ih =>
    rw [numberEnd, getElem?_eq_head?]
    rcases hc : buf.drop p with _ | ⟨c, cs⟩
    · rw [List.head?_nil, List.take_nil]
      exact ⟨Nat.le_refl _, rfl, hc⟩
    · by_cases hnum : isNumChar c = true
      · obtain ⟨hle, htake, hdrop⟩ := ih (p + 1) (by omega)
        rw [drop_succ_of_drop hc] at htake hdrop
        simp only [List.head?_cons, hnum, if_true]
        refine ⟨by omega, ?_, by rw [hdrop, List.dropWhile_cons_of_pos hnum]⟩
        have hsub : numberEnd buf n (p + 1) - p = (numberEnd buf n (p + 1) - (p + 1)) + 1 := by
          omega
        rw [hsub, List.take_succ_cons, htake, List.takeWhile_cons_of_pos hnum]
      · simp only [List.head?_cons, hnum, Bool.false_eq_true, if_false]
        refine ⟨Nat.le_refl _, ?_, by rw [hc, List.dropWhile_cons_of_neg hnum]⟩
        rw [Nat.sub_self, List.take_zero, List.takeWhile_cons_of_neg hnum]

theorem matchLit_iff (p : Nat) {l : List UInt8} (hl : l ≠ []) :
    matchLit buf p l = true ↔
      l <+: buf.drop p ∧ ¬ (((buf.drop p).drop l.length).head?.any isalnum) := by
  unfold matchLit
  by_cases hlen : p + l.length > buf.length
  · rw [if_pos hlen]
    simp only [Bool.false_eq_true, false_iff, not_and]
    intro hpre
    have hle := hpre.length_le
    have hpos := List.length_pos_iff.mpr hl
    rw [List.length_drop] at hle
    omega
  · rw [if_neg hlen, List.drop_drop, getElem?_eq_head?]
    by_cases heq : (buf.drop p).take l.length = l
    · rw [if_neg (not_not.mpr heq)]
      have hpre : l <+: buf.drop p := List.prefix_iff_eq_take.mpr heq.symm
      cases hc : (buf.drop (p + l.length)).head? <;> simp [hpre]
    · rw [if_pos heq]
      simp only [Bool.false_eq_true, false_iff, not_and]
      intro hpre
      exact absurd (List.prefix_iff_eq_take.mp hpre).symm heq

theorem parseHex_eq (n i v : Nat) :
    parseHex buf n i v = (Trace.hexDigits n v (buf.drop i)).map Prod.fst := by
  induction n generalizing i v with
  | zero => rfl
  | succ n ih =>
    rw [parseHex, getElem?_eq_head?]
    rcases hc : buf.drop i with _ | ⟨c, cs⟩
    · rfl
    · simp only [List.head?_cons, Trace.hexDigits, ih, drop_succ_of_drop hc]
      cases hexDigit c <;> rfl

/-! ## 2. Strings -/

/-- The program scans a token as the abstract machine does. -/
def Computes (buf : List UInt8) (m : Prog St Unit) (s : St) (r : Trace.Scanned) : Prop :=
  ∃ p, m s = some (r.2.map fun _ => (), { p := p, out := execAll r.1 s.out }) ∧
    ∀ rest, r.2 = some rest → buf.drop p = rest

theorem Computes.bind {m n : Prog St Unit} {s : St} {cs : List Cmd} {rest : List UInt8}
    {r : Trace.Scanned} (h₁ : Computes buf m s (cs, some rest))
    (h₂ : ∀ s', buf.drop s'.p = rest → Computes buf n s' r) :
    Computes buf (m >>= fun _ => n) s (cs ++ r.1, r.2) := by
  obtain ⟨p₁, hrun₁, hrest₁⟩ := h₁
  obtain ⟨p₂, hrun₂, hrest₂⟩ := h₂ ⟨p₁, execAll cs s.out⟩ (hrest₁ rest rfl)
  exact ⟨p₂, by rw [Prog.bind_of_ok hrun₁, hrun₂, execAll_append], hrest₂⟩

theorem Computes.bind_none {m n : Prog St Unit} {s : St} {cs : List Cmd}
    (h₁ : Computes buf m s (cs, none)) : Computes buf (m >>= fun _ => n) s (cs, none) := by
  obtain ⟨p₁, hrun₁, -⟩ := h₁
  exact ⟨p₁, by rw [Prog.bind_of_fail hrun₁]; rfl, nofun⟩

theorem Computes.of_move {m n : Prog St Unit} {s : St} {p : Nat} {r : Trace.Scanned}
    (hrun : m s = n { s with p := p }) (h : Computes buf n { s with p := p } r) :
    Computes buf m s r := by
  obtain ⟨p', hrun', hrest⟩ := h
  exact ⟨p', hrun.trans hrun', hrest⟩

theorem computes_advance (n : Nat) {s : St} {r : List UInt8} (hr : buf.drop (s.p + n) = r) :
    Computes buf (advance n) s ([], some r) := by
  refine ⟨s.p + n, rfl, ?_⟩
  rintro rest ⟨⟩
  exact hr

theorem computes_out (c : Cmd) {s : St} {r : List UInt8} (hr : buf.drop s.p = r) :
    Computes buf (out c) s ([c], some r) := by
  refine ⟨s.p, rfl, ?_⟩
  rintro rest ⟨⟩
  exact hr

theorem computes_pure {s : St} {r : List UInt8} (hr : buf.drop s.p = r) :
    Computes buf (pure ()) s ([], some r) := by
  refine ⟨s.p, rfl, ?_⟩
  rintro rest ⟨⟩
  exact hr

theorem computes_fail (s : St) : Computes buf Prog.fail s ([], none) := ⟨s.p, rfl, nofun⟩

/-- Put on the line, then step over the byte: most branches of the string loop. -/
theorem computes_out_advance (c : Cmd) {s : St} {b : UInt8} {r : List UInt8}
    (hr : buf.drop s.p = b :: r) :
    Computes buf (do out c; advance 1) s ([c], some r) := by
  have h := (computes_out c hr).bind (n := advance 1) (r := ([], some r)) fun s' hs' =>
    computes_advance 1 (drop_succ_of_drop hs')
  exact h

theorem emitEscape_computes (c : UInt8) (hc : c ≠ 0x75) (s : St) {r : List UInt8}
    (hr : buf.drop s.p = c :: r) :
    Computes buf (emitEscape buf c) s (Trace.escapeCmds c, some r) := by
  unfold emitEscape Trace.escapeCmds
  split_ifs <;> first
    | exact computes_advance 1 (drop_succ_of_drop hr)
    | exact computes_out_advance _ hr
    | (subst_vars; exact computes_out_advance _ hr)
    | (exfalso; grind)

theorem emitContinuation_computes (n : Nat) (s : St) :
    Computes buf (emitContinuation buf n) s
      (((buf.drop s.p).take n).map .raw, some ((buf.drop s.p).drop n)) := by
  refine ⟨s.p + n, ?_, ?_⟩
  · rw [execAll_map_raw]
    rfl
  · rintro rest ⟨⟩
    rw [List.drop_drop]

/-- The escape as this version takes it: with bad digits after a high surrogate the second escape
is left alone. -/
def lenientEscape (s : List UInt8) : Trace.Scanned :=
  match Trace.hexDigits 4 0 s with
  | none => ([], none)
  | some (v, s) =>
    if Trace.isHighSurrogate v then
      match (Trace.lowSurrogate v s).2 with
      | none => ([], some s)
      | some _ => Trace.lowSurrogate v s
    else if Trace.isLowSurrogate v then ([], some s)
    else ([.utf8 v], some s)

/-- A list that is long enough and has the first two bytes looked for. -/
theorem take_two_iff (p : Nat) (a b : UInt8) :
    (buf.drop p).take 2 = [a, b] ↔ buf[p]? = some a ∧ buf[p + 1]? = some b := by
  have h₁ : buf[p + 1]? = (buf.drop p).tail.head? := by
    rw [getElem?_eq_head?, ← List.tail_drop]
  rw [getElem?_eq_head?, h₁]
  rcases buf.drop p with _ | ⟨x, _ | ⟨y, cs⟩⟩ <;> simp

theorem lowAt_some {cp p lo : Nat} (h : lowAt buf cp p = some lo) :
    Trace.isHighSurrogate cp ∧ Trace.isLowSurrogate lo ∧
      Trace.lowSurrogate cp (buf.drop p) =
        ([.utf8 (surrogatePair cp lo)], some (buf.drop (p + 6))) := by
  unfold lowAt at h
  split at h
  · next hc =>
    obtain ⟨hlo, hhi, hlen, h0, h1⟩ := hc
    rw [parseHex4, parseHex_eq] at h
    rcases hd : Trace.hexDigits 4 0 (buf.drop (p + 2)) with _ | ⟨l, s'⟩
    · rw [hd] at h
      cases h
    · rw [hd] at h
      simp only [Option.map_some] at h
      split at h
      · next hl =>
        cases h
        refine ⟨⟨hlo, hhi⟩, hl, ?_⟩
        rw [Trace.lowSurrogate, if_pos ((take_two_iff p _ _).mpr ⟨h0, h1⟩), List.drop_drop, hd]
        simp only [if_pos hl]
        rw [Trace.hexDigits_rest hd, List.drop_drop]
      · cases h
  · cases h

theorem lowAt_none {cp p : Nat} (h : lowAt buf cp p = none) (hcp : Trace.isHighSurrogate cp) :
    (Trace.lowSurrogate cp (buf.drop p)).2 = none ∨
      Trace.lowSurrogate cp (buf.drop p) = ([], some (buf.drop p)) := by
  unfold lowAt at h
  rw [Trace.lowSurrogate]
  split
  · next htake =>
    obtain ⟨h0, h1⟩ := (take_two_iff p _ _).mp htake
    rw [List.drop_drop]
    rcases hd : Trace.hexDigits 4 0 (buf.drop (p + 2)) with _ | ⟨l, s'⟩
    · exact .inl rfl
    · have hlen := Trace.hexDigits_length hd
      rw [List.length_drop] at hlen
      rw [if_pos ⟨hcp.1, hcp.2, by omega, h0, h1⟩, parseHex4, parseHex_eq, hd] at h
      simp only [Option.map_some] at h
      split at h
      · cases h
      · next hl => exact .inr (by simp only [if_neg hl])
  · exact .inr rfl

theorem parseUnicodeEscape_computes (s : St) {r : List UInt8} (hr : buf.drop s.p = 0x75 :: r) :
    Computes buf (parseUnicodeEscape buf) s (lenientEscape r) := by
  have hr₁ : buf.drop (s.p + 1) = r := drop_succ_of_drop hr
  have hlen : r.length = buf.length - (s.p + 1) := by rw [← hr₁, List.length_drop]
  rw [lenientEscape, parseUnicodeEscape]
  refine Computes.of_move (p := s.p) (Prog.get_bind_apply _ _) ?_
  by_cases hshort : s.p + 5 > buf.length
  · rw [if_pos hshort]
    have hnone : Trace.hexDigits 4 0 r = none := by
      rcases h : Trace.hexDigits 4 0 r with _ | ⟨v, s'⟩
      · rfl
      · have := Trace.hexDigits_length h
        omega
    rw [hnone]
    exact computes_fail _
  rw [if_neg hshort, parseHex4, parseHex_eq, hr₁]
  rcases h : Trace.hexDigits 4 0 r with _ | ⟨v, r'⟩
  · exact computes_fail _
  have hr' : buf.drop (s.p + 5) = r' := by
    rw [Trace.hexDigits_rest h, ← hr₁, List.drop_drop]
  simp only [Option.map_some]
  refine Computes.of_move (advance_bind _ _ _) ?_
  rcases hlow : lowAt buf v (s.p + 5) with _ | lo
  · simp only [parseUnicodeEscape.appendCodePoint]
    by_cases hhi : Trace.isHighSurrogate v
    -- an unpaired high surrogate; whatever follows it is left to the loop
    · have hleft : (Trace.lowSurrogate v r').2 = none ∨
          Trace.lowSurrogate v r' = ([], some r') := hr' ▸ lowAt_none hlow hhi
      simp only [if_pos hhi]
      rw [if_pos (by omega)]
      rcases hleft with hnone | hsome
      · rw [hnone]
        exact computes_pure hr'
      · rw [hsome]
        exact computes_pure hr'
    · simp only [if_neg hhi]
      by_cases hlo : Trace.isLowSurrogate v
      · rw [if_pos hlo, if_pos (by omega)]
        exact computes_pure hr'
      · rw [if_neg hlo, if_neg (by omega)]
        exact computes_out _ hr'
  · obtain ⟨hhi, hlo, hpair⟩ := lowAt_some hlow
    have hbig : ¬ (0xD800 ≤ surrogatePair v lo ∧ surrogatePair v lo ≤ 0xDFFF) := by
      unfold surrogatePair
      omega
    rw [hr'] at hpair
    simp only [if_pos hhi, hpair, parseUnicodeEscape.appendCodePoint, if_neg hbig]
    exact Computes.of_move (advance_bind _ _ _) (computes_out _ (by rw [Nat.add_assoc]))

/-- A second escape with bad digits fails in the next round of the loop. -/
theorem stringBody_of_lowSurrogate_none {v : Nat} {s : List UInt8}
    (h : (Trace.lowSurrogate v s).2 = none) :
    Trace.lowSurrogate v s = ([], none) ∧ Trace.stringBody s = ([], none) := by
  unfold Trace.lowSurrogate at h ⊢
  split at h
  · next htake =>
    rw [if_pos htake]
    rcases hd : Trace.hexDigits 4 0 (s.drop 2) with _ | ⟨lo, s'⟩
    · obtain ⟨es, rfl⟩ : ∃ es, s = backslash :: 0x75 :: es := by
        rcases s with _ | ⟨a, _ | ⟨b, es⟩⟩ <;> simp_all
      refine ⟨rfl, ?_⟩
      rw [List.drop_succ_cons, List.drop_succ_cons, List.drop_zero] at hd
      have hesc : Trace.unicodeEscape es = ([], none) := by rw [Trace.unicodeEscape, hd]
      rw [Trace.stringBody_unicode, hesc]
    · rw [hd] at h
      simp only at h
      split at h <;> cases h
  · cases h

theorem Computes.cur_bind {k : Option UInt8 → Prog St Unit} {s : St} {r : Trace.Scanned}
    (h : Computes buf (k (buf.drop s.p).head?) s r) : Computes buf (cur buf >>= k) s r :=
  h.of_move (p := s.p) (by rw [Whole.cur_bind, getElem?_eq_head?])

/-- The escape of the lenient version, followed by the rest of the loop, is the escape of the
abstract machine. -/
theorem Computes.bind_escape {m₁ m₂ : Prog St Unit} {s : St} {es : List UInt8}
    (h₁ : Computes buf m₁ s (lenientEscape es))
    (h₂ : ∀ s' r, r.length < es.length → buf.drop s'.p = r →
      Computes buf m₂ s' (Trace.stringBody r)) :
    Computes buf (m₁ >>= fun _ => m₂) s
      (match (Trace.unicodeEscape es).2 with
      | none => Trace.unicodeEscape es
      | some s' => ((Trace.unicodeEscape es).1 ++ (Trace.stringBody s').1,
          (Trace.stringBody s').2)) := by
  unfold lenientEscape at h₁
  rcases h : Trace.hexDigits 4 0 es with _ | ⟨v, r⟩
  · rw [h] at h₁
    have hesc : Trace.unicodeEscape es = ([], none) := by rw [Trace.unicodeEscape, h]
    rw [hesc]
    exact h₁.bind_none
  have hlen := Trace.hexDigits_length h
  rw [h] at h₁
  by_cases hhi : Trace.isHighSurrogate v
  · have hesc : Trace.unicodeEscape es = Trace.lowSurrogate v r := by
      rw [Trace.unicodeEscape, h]
      simp only [if_pos hhi]
    rw [hesc]
    simp only [if_pos hhi] at h₁
    rcases hlow : (Trace.lowSurrogate v r).2 with _ | r'
    · rw [hlow] at h₁
      obtain ⟨hnone, hbody⟩ := stringBody_of_lowSurrogate_none hlow
      have hrest := h₁.bind fun s' => h₂ s' r (by omega)
      rw [hbody] at hrest
      rw [hnone]
      exact hrest
    · have heq : Trace.lowSurrogate v r = ((Trace.lowSurrogate v r).1, some r') :=
        Prod.ext rfl hlow
      have hshorter := Trace.lowSurrogate_length hlow
      rw [hlow] at h₁
      simp only at h₁ ⊢
      rw [heq] at h₁
      exact h₁.bind fun s' => h₂ s' r' (by omega)
  · have hesc : Trace.unicodeEscape es =
        if Trace.isLowSurrogate v then ([], some r) else ([.utf8 v], some r) := by
      rw [Trace.unicodeEscape, h]
      simp only [if_neg hhi]
    rw [hesc]
    simp only [if_neg hhi] at h₁
    by_cases hlo : Trace.isLowSurrogate v
    · simp only [if_pos hlo] at h₁ ⊢
      exact h₁.bind fun s' => h₂ s' r (by omega)
    · simp only [if_neg hlo] at h₁ ⊢
      exact h₁.bind fun s' => h₂ s' r (by omega)

theorem emitLoop_computes (n : Nat) (s : St) (hn : (buf.drop s.p).length < n) :
    Computes buf (emitLoop buf n) s (Trace.stringBody (buf.drop s.p)) := by
  induction n generalizing s with
  | zero => omega
  | succ n ih =>
    -- the rest of the loop, on any state whose content is shorter
    have hloop : ∀ (s' : St) (r : List UInt8), r.length < n → buf.drop s'.p = r →
        Computes buf (emitLoop buf n) s' (Trace.stringBody r) :=
      fun s' r hr hs' => hs' ▸ ih s' (by rw [hs']; exact hr)
    rw [emitLoop]
    refine Computes.cur_bind ?_
    rcases hc : buf.drop s.p with _ | ⟨c, cs⟩
    · rw [Trace.stringBody]
      exact computes_fail _
    rw [hc, List.length_cons] at hn
    have hcs : buf.drop (s.p + 1) = cs := drop_succ_of_drop hc
    rw [Trace.stringBody.eq_def]
    simp only [List.head?_cons]
    by_cases hq : c = quote
    · simp only [if_pos hq]
      exact computes_advance 1 hcs
    simp only [if_neg hq]
    by_cases hb : c = backslash
    · simp only [if_pos hb]
      refine Computes.of_move (advance_bind _ _ _) (Computes.cur_bind ?_)
      simp only [hcs]
      rcases hes : cs with _ | ⟨e, es⟩
      · exact computes_fail _
      rw [hes, List.length_cons] at hn
      rw [hes] at hcs
      simp only [List.head?_cons]
      by_cases hu : e = 0x75
      · have hprog : emitEscape buf e = parseUnicodeEscape buf := by rw [hu]; rfl
        have hesc := parseUnicodeEscape_computes ⟨s.p + 1, s.out⟩ (r := es) (by rw [← hu]; exact hcs)
        have hrest := hesc.bind_escape fun s' r hr => hloop s' r (by omega)
        simp only [if_pos hu, hprog]
        split
        · next hnone =>
          rw [hnone] at hrest
          exact hrest
        · next es' hsome =>
          rw [hsome] at hrest
          exact hrest
      · have hesc := emitEscape_computes e hu ⟨s.p + 1, s.out⟩ hcs
        simp only [if_neg hu]
        exact hesc.bind fun s' => hloop s' es (by omega)
    simp only [if_neg hb]
    by_cases hctl : c < 0x20
    · simp only [if_pos hctl]
      have hstep := computes_out_advance .space hc
      rw [← Prog.bind_assoc]
      exact hstep.bind fun s' => hloop s' cs (by omega)
    simp only [if_neg hctl]
    by_cases hascii : c < 0x80
    · simp only [if_pos hascii]
      have hstep := computes_out_advance (.byte c) hc
      rw [← Prog.bind_assoc]
      exact hstep.bind fun s' => hloop s' cs (by omega)
    simp only [if_neg hascii]
    have hlead := computes_out_advance (.lead (utf8CharLen c) c) hc
    have hcont : ∀ s' : St, buf.drop s'.p = cs →
        Computes buf (emitContinuation buf (utf8CharLen c - 1)) s'
          ((cs.take (utf8CharLen c - 1)).map .raw, some (cs.drop (utf8CharLen c - 1))) :=
      fun s' hs' => hs' ▸ emitContinuation_computes (utf8CharLen c - 1) s'
    rw [← Prog.bind_assoc]
    by_cases hshort : cs.length < utf8CharLen c - 1
    -- the loop goes on behind the end of the input, and fails there
    · simp only [if_pos hshort]
      refine hlead.bind (r := (cs.map .raw, none)) fun s' hs' => ?_
      have hend := (hcont s' hs').bind fun s₂ => hloop s₂ _ (by rw [List.length_drop]; omega)
      rw [List.drop_eq_nil_of_le (by omega), List.take_of_length_le (by omega), Trace.stringBody,
        List.append_nil] at hend
      exact hend
    · simp only [if_neg hshort]
      refine hlead.bind (r := ((cs.take (utf8CharLen c - 1)).map .raw ++ _, _)) fun s' hs' => ?_
      exact (hcont s' hs').bind fun s₂ => hloop s₂ _ (by rw [List.length_drop]; omega)

theorem emitJsonString_computes {s : St} {r : List UInt8} (hr : buf.drop s.p = quote :: r) :
    Computes buf (emitJsonString buf) s (Trace.stringBody r) := by
  have hrest : buf.drop (s.p + 1) = r := drop_succ_of_drop hr
  rw [emitJsonString]
  refine Computes.of_move (advance_bind _ _ _) ?_
  refine Computes.of_move (n := emitLoop buf _) (p := s.p + 1) (Prog.get_bind_apply _ _) ?_
  have hloop := @emitLoop_computes buf (buf.length - (s.p + 1) + 1) ⟨s.p + 1, s.out⟩
    (by rw [List.length_drop]; exact Nat.lt_succ_self _)
  simp only [hrest] at hloop
  exact hloop

theorem parseNumber_computes (s : St) :
    Computes buf (parseNumber buf) s (Trace.scanNumber (buf.drop s.p)) := by
  obtain ⟨-, htake, hdrop⟩ := @drop_numberEnd buf buf.length s.p (by omega)
  refine ⟨numberEnd buf buf.length s.p, ?_, ?_⟩
  · simp only [parseNumber, Prog.modify_apply, htake, Trace.scanNumber]
    rfl
  · rintro rest ⟨⟩
    exact hdrop

theorem parseLit_computes {l : List UInt8} {s : St} (hl : l ≠ [])
    (hmatch : matchLit buf s.p l = true) :
    Computes buf (parseLit l) s (Trace.scanLit l (buf.drop s.p)) := by
  rw [Trace.scanLit, if_pos ((matchLit_iff _ hl).mp hmatch), parseLit]
  exact Computes.of_move (advance_bind _ _ _) (computes_out _ (by rw [List.drop_drop]))

/-! ## 3. The recursive functions -/

theorem Computes.sim {m : Prog St Unit} {f : List UInt8 → Trace.Scanned} {s : St} {t : Trace.St}
    (hr : Refines buf s t) (h : Computes buf m s (f t.rest)) :
    Prog.Rel Failed (fun _ _ => Refines buf) (m s) (Trace.token f t) := by
  obtain ⟨p, hrun, hrest⟩ := h
  rw [hrun, Trace.token]
  rcases hscan : f t.rest with ⟨cs, _ | rest⟩
  · refine .error ?_
    rw [Failed, execAll_append, ← hr.out]
  · rw [hscan] at hrest
    refine .value ⟨hrest rest rfl, ?_⟩
    rw [execAll_append, ← hr.out]

variable (buf)

/-- `Refines` with the next byte known. -/
def At (c : Option UInt8) (s : St) (t : Trace.St) : Prop := Refines buf s t ∧ t.rest.head? = c

/-- The program refines its counterpart. -/
abbrev Sims (m : Prog St Unit) (n : Prog Trace.St Unit) : Prop :=
  Prog.Sim (Refines buf) Failed (fun _ _ => Refines buf) m n

variable {buf}

section
variable {β γ : Type} {Q : β → γ → St → Trace.St → Prop}

theorem sim_peek {k : Option UInt8 → Prog St β} {l : Option UInt8 → Prog Trace.St γ}
    (h : ∀ c, Prog.Sim (At buf c) Failed Q (k c) (l c)) :
    Prog.Sim (Refines buf) Failed Q (cur buf >>= k) (Trace.peek >>= l) := by
  intro s t hr
  rw [cur_bind, getElem?_eq_head?, hr.content]
  exact h _ s t ⟨hr, rfl⟩

theorem sim_advance {k : Unit → Prog St β} {l : Unit → Prog Trace.St γ}
    (h : Prog.Sim (Refines buf) Failed Q (k ()) (l ())) :
    Prog.Sim (Refines buf) Failed Q (advance 1 >>= k) (Trace.next >>= l) := by
  intro s t hr
  exact h _ _ ⟨by rw [← List.tail_drop, hr.content], hr.out⟩

/-- The counters of the abstract machine have no counterpart here. -/
theorem sim_enter {m : Prog St β} {l : Unit → Prog Trace.St γ}
    (h : Prog.Sim (Refines buf) Failed Q m (l ())) :
    Prog.Sim (Refines buf) Failed Q m (Trace.enter >>= l) :=
  fun s _ hr => h s _ ⟨hr.content, hr.out⟩

end

theorem Sims.at {m : Prog St Unit} {n : Prog Trace.St Unit} (h : Sims buf m n) (c : Option UInt8) :
    Prog.Sim (At buf c) Failed (fun _ _ => Refines buf) m n :=
  h.conseq (fun _ _ h => h.1) (fun _ _ _ _ hr => hr)

theorem sim_skipWs : Sims buf (skipWs buf) Trace.skipWs :=
  Prog.Sim.modify fun s t hr =>
    ⟨by rw [drop_skipWsFrom _ _ (by omega), hr.content], hr.out⟩

theorem sim_out (c : Cmd) : Sims buf (out c) (Trace.emit [c]) := by
  refine Prog.Sim.modify fun s t hr => ⟨hr.content, ?_⟩
  simp only [execAll_append, execAll_cons, execAll_nil, hr.out]

theorem sim_out_at (c : Cmd) (b : Option UInt8) :
    Prog.Sim (At buf b) Failed (fun _ _ => At buf b) (out c) (Trace.emit [c]) := by
  refine Prog.Sim.modify fun s t hr => ⟨⟨hr.1.content, ?_⟩, hr.2⟩
  simp only [execAll_append, execAll_cons, execAll_nil, hr.1.out]

theorem sim_fail : Sims buf Prog.fail Prog.fail := Prog.Sim.fail fun _ _ hr => hr.out

/-- A closing bracket. -/
theorem sim_advance_leave :
    Sims buf (advance 1) (Trace.next >>= fun _ => Trace.leave) :=
  fun s t hr => .value ⟨by rw [← List.tail_drop, hr.content], hr.out⟩

theorem sim_string :
    Prog.Sim (At buf (some quote)) Failed (fun _ _ => Refines buf) (emitJsonString buf)
      Trace.string := by
  intro s t hr
  obtain ⟨r, hrest⟩ := List.head?_eq_some_iff.mp hr.2
  refine Computes.sim (f := fun s => Trace.stringBody s.tail) hr.1 ?_
  rw [hrest, List.tail_cons]
  exact emitJsonString_computes (hr.1.content.trans hrest)

theorem sim_number : Sims buf (parseNumber buf) Trace.number := by
  intro s t hr
  have h : Computes buf (parseNumber buf) s (Trace.scanNumber (buf.drop s.p)) :=
    parseNumber_computes s
  rw [hr.content] at h
  exact Computes.sim hr h

/-- A literal that `match_lit` accepts. -/
theorem rel_lit {l : List UInt8} (hl : l ≠ []) {s : St} {t : Trace.St} (hr : Refines buf s t)
    (hmatch : matchLit buf s.p l = true) :
    Prog.Rel Failed (fun _ _ => Refines buf) (parseLit l s) (Trace.lit l t) := by
  have h := parseLit_computes hl hmatch
  rw [hr.content] at h
  exact Computes.sim hr h

/-- A literal that `match_lit` refuses is an error of the abstract machine too. -/
theorem rel_lit_fail {l : List UInt8} (hl : l ≠ []) {s : St} {t : Trace.St} (hr : Refines buf s t)
    (hmatch : ¬ matchLit buf s.p l = true) :
    Prog.Rel (α := Unit) Failed (fun _ _ => Refines buf) (Prog.fail s) (Trace.lit l t) := by
  rw [matchLit_iff _ hl, hr.content] at hmatch
  have hscan : Trace.scanLit l t.rest = ([], none) := by rw [Trace.scanLit, if_neg hmatch]
  rw [Trace.lit, Trace.token, hscan]
  refine .error ?_
  rw [Failed, List.append_nil, hr.out]

/-- The `switch` of `parse_value`, given what its callees do. -/
theorem sim_dispatch {mo ma : Prog St Unit} {no na : Prog Trace.St Unit} (hobject : Sims buf mo no)
    (harray : Sims buf ma na) (c : UInt8) {s : St} {t : Trace.St}
    (hr : At buf (some c) s t) :
    Prog.Rel Failed (fun _ _ => Refines buf)
      ((if c = lbrace then mo
        else if c = lbracket then ma
        else if c = quote then emitJsonString buf
        else if c = 0x74 ∧ matchLit buf s.p (bytes "true") then parseLit (bytes "true")
        else if c = 0x66 ∧ matchLit buf s.p (bytes "false") then parseLit (bytes "false")
        else if c = 0x6E ∧ matchLit buf s.p (bytes "null") then parseLit (bytes "null")
        else if isdigit c ∨ c = minus then parseNumber buf
        else .fail) s)
      ((if c = lbrace then no
        else if c = lbracket then na
        else if c = quote then Trace.string
        else if c = 0x74 then Trace.lit (bytes "true")
        else if c = 0x66 then Trace.lit (bytes "false")
        else if c = 0x6E then Trace.lit (bytes "null")
        else if isdigit c ∨ c = minus then Trace.number
        else .fail) t) := by
  by_cases hobj : c = lbrace
  · simp only [if_pos hobj]
    exact hobject s t hr.1
  by_cases harr : c = lbracket
  · simp only [if_neg hobj, if_pos harr]
    exact harray s t hr.1
  by_cases hstr : c = quote
  · simp only [if_neg hobj, if_neg harr, if_pos hstr]
    exact sim_string s t (hstr ▸ hr)
  simp only [if_neg hobj, if_neg harr, if_neg hstr]
  -- a literal that does not match falls through the tests below it
  by_cases htrue : c = 0x74
  · subst htrue
    by_cases hm : matchLit buf s.p (bytes "true") = true
    · rw [if_pos ⟨rfl, hm⟩, if_pos rfl]
      exact rel_lit (by decide) hr.1 hm
    · rw [if_neg (fun h => hm h.2), if_neg (fun h => absurd h.1 (by decide)),
        if_neg (fun h => absurd h.1 (by decide)), if_neg (by decide), if_pos rfl]
      exact rel_lit_fail (by decide) hr.1 hm
  by_cases hfalse : c = 0x66
  · subst hfalse
    simp only [htrue, false_and, true_and, if_true, if_false]
    by_cases hm : matchLit buf s.p (bytes "false") = true
    · rw [if_pos hm]
      exact rel_lit (by decide) hr.1 hm
    · rw [if_neg hm, if_neg (fun h => absurd h.1 (by decide)), if_neg (by decide)]
      exact rel_lit_fail (by decide) hr.1 hm
  by_cases hnull : c = 0x6E
  · subst hnull
    simp only [htrue, hfalse, false_and, true_and, if_true, if_false]
    by_cases hm : matchLit buf s.p (bytes "null") = true
    · rw [if_pos hm]
      exact rel_lit (by decide) hr.1 hm
    · rw [if_neg hm, if_neg (by decide)]
      exact rel_lit_fail (by decide) hr.1 hm
  simp only [htrue, hfalse, hnull, false_and, if_false]
  by_cases hnum : isdigit c ∨ c = minus
  · rw [if_pos hnum, if_pos hnum]
    exact sim_number s t hr.1
  · rw [if_neg hnum, if_neg hnum]
    exact sim_fail s t hr.1

section
variable {fuel : Nat} (hvalue : ∀ d, Sims buf (parseValue buf fuel d) (Trace.value fuel d))
include hvalue

/-- The value of a member or an element, and what stands behind it. -/
theorem sim_child (d : Nat) {k : Prog St Unit} {l : Prog Trace.St Unit} (h : Sims buf k l) :
    Sims buf
      (do
        let c ← cur buf
        (if c = some lbrace ∨ c = some lbracket then do
          out .flush
          parseValue buf fuel (d + 1)
        else do
          parseValue buf fuel d
          out .flush)
        k)
      (do
        Trace.child (Trace.value fuel) d
        l) := by
  rw [Trace.child, Prog.bind_assoc]
  refine sim_peek fun c => Sims.at (Prog.Sim.bind ?_ fun _ _ => h) c
  refine Prog.Sim.ite (fun _ _ _ => Iff.rfl) (fun _ => ?_) (fun _ => ?_)
  · exact (sim_out .flush).bind fun _ _ => hvalue (d + 1)
  · exact (hvalue d).bind fun _ _ => sim_out .flush

end

theorem sim_close (b : UInt8) :
    Sims buf
      (do
        skipWs buf
        let c ← cur buf
        if c ≠ some b then .fail
        else advance 1)
      (Trace.close b) := by
  refine sim_skipWs.bind fun _ _ => sim_peek fun c => ?_
  exact Prog.Sim.ite (fun _ _ _ => Iff.rfl) (fun _ => sim_fail.at c)
    (fun _ => sim_advance_leave.at c)

/-- Each recursive function refines its counterpart under the same bound. -/
theorem sim_parse (fuel : Nat) :
    (∀ d, Sims buf (parseValue buf fuel d) (Trace.value fuel d)) ∧
    (∀ d, Sims buf (parseObject buf fuel d) (Trace.object fuel d)) ∧
    (∀ d, Sims buf (parseMembers buf fuel d) (Trace.members fuel d)) ∧
    (∀ d, Sims buf (parseArray buf fuel d) (Trace.array fuel d)) ∧
    (∀ d, Sims buf (parseElements buf fuel d) (Trace.elements fuel d)) := by
  induction fuel with
  | zero => exact ⟨fun _ => .diverge, fun _ => .diverge, fun _ => .diverge, fun _ => .diverge,
      fun _ => .diverge⟩
  | succ fuel ih =>
    obtain ⟨hvalue, hobject, hmembers, harray, helements⟩ := ih
    refine ⟨fun d => ?value, fun d => ?object, fun d => ?members, fun d => ?array,
      fun d => ?elements⟩
    case value =>
      rw [parseValue, Trace.value]
      refine sim_skipWs.bind fun _ _ => ?_
      intro s t hr
      rw [Prog.get_bind_apply, getElem?_eq_head?, hr.content]
      rcases hc : t.rest.head? with _ | c
      · simp only [Trace.peek, Prog.modifyGet_bind_apply, hc]
        exact sim_fail s t hr
      · simp only [Trace.peek, Prog.modifyGet_bind_apply, hc]
        exact sim_dispatch (hobject d) (harray d) c ⟨hr, hc⟩
    case object =>
      rw [parseObject, Trace.object]
      refine Prog.Sim.ite (fun _ _ _ => Iff.rfl) (fun _ => sim_fail) fun _ => ?_
      refine sim_enter (sim_advance (sim_skipWs.bind fun _ _ => sim_peek fun c => ?_))
      exact Prog.Sim.ite (fun _ _ _ => Iff.rfl) (fun _ => sim_advance_leave.at c)
        fun _ => (hmembers d).at c
    case members =>
      rw [parseMembers, Trace.members]
      refine sim_skipWs.bind fun _ _ => sim_peek fun c => ?_
      refine Prog.Sim.ite (fun _ _ _ => Iff.rfl) (fun _ => sim_fail.at c) fun hc => ?_
      rw [Decidable.not_not.mp hc]
      refine (sim_out_at _ _).bind fun _ _ => sim_string.bind fun _ _ => sim_skipWs.bind fun _ _ =>
        sim_peek fun c => ?_
      refine Prog.Sim.ite (fun _ _ _ => Iff.rfl) (fun _ => sim_fail.at c) fun _ => Sims.at ?_ c
      refine sim_advance (sim_skipWs.bind fun _ _ => (sim_out _).bind fun _ _ =>
        sim_child hvalue d (sim_skipWs.bind fun _ _ => sim_peek fun c => ?_))
      exact Prog.Sim.ite (fun _ _ _ => Iff.rfl) (fun _ => Sims.at (sim_advance (hmembers d)) c)
        fun _ => (sim_close rbrace).at c
    case array =>
      rw [parseArray, Trace.array]
      refine Prog.Sim.ite (fun _ _ _ => Iff.rfl) (fun _ => sim_fail) fun _ => ?_
      refine sim_enter (sim_advance (sim_skipWs.bind fun _ _ => sim_peek fun c => ?_))
      exact Prog.Sim.ite (fun _ _ _ => Iff.rfl) (fun _ => sim_advance_leave.at c)
        fun _ => (helements d).at c
    case elements =>
      rw [parseElements, Trace.elements]
      refine (sim_out _).bind fun _ _ => (sim_out _).bind fun _ _ =>
        sim_child hvalue d (sim_skipWs.bind fun _ _ => sim_peek fun c => ?_)
      exact Prog.Sim.ite (fun _ _ _ => Iff.rfl) (fun _ => Sims.at (sim_advance (helements d)) c)
        fun _ => (sim_close rbracket).at c

end J2t.Whole
