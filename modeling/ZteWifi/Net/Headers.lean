import ZteWifi.Lib.Search
import ZteWifi.Net.Socket

/-!
# Reading the request header

`read_headers` and `find_head_end`, of which `websh.c` and `wssh.c` carry the same copy.  The end of
the header is searched for in what has arrived so far, for one of its two spellings after the other;
so it is the first end in the stream unless the other spelling has arrived together with it.
-/

open Ascii

namespace Net

/-! ## 1. The routines -/

/-- `HEAD_MAX` -/
@[simp] abbrev headMax : Nat := 16384

def cr : UInt8 := 0x0D

/-- An empty line between CR LF line ends. -/
def crlfEnd : List UInt8 := [cr, nl, cr, nl]

/-- An empty line between LF line ends. -/
def lfEnd : List UInt8 := [nl, nl]

/-- `find_head_end` on the first bytes of `hbuf`; `none` is the result `-1`. -/
def findHeadEnd (p : List UInt8) (start : Nat) : Option Nat :=
  match Search.find crlfEnd (p.drop start) with
  | some i => some (start + i + 4)
  | none =>
    match Search.find lfEnd (p.drop start) with
    | some i => some (start + i + 2)
    | none => none

/-- What `read_headers` leaves: its result, the bytes in `hbuf` (`*total` of them), and what has not
been received yet. -/
structure Head where
  ret : Int
  buf : List UInt8
  later : List Recv
  deriving DecidableEq, Repr

/-- The loop of `read_headers`, in which `late i` tells whether the deadline has passed at the
`i`-th turn. -/
def readHeadersLoop (late : Nat → Bool) (i : Nat) (buf : List UInt8) : List Recv → Head
  | [] => if buf.length ≥ headMax then ⟨-2, buf, []⟩ else ⟨-1, buf, []⟩
  | r :: later =>
    if buf.length ≥ headMax then ⟨-2, buf, r :: later⟩
    else if late i then ⟨-1, buf, r :: later⟩
    else
      match r with
      | .intr => readHeadersLoop late (i + 1) buf later
      | .error => ⟨-1, buf, later⟩
      | .data bs =>
        if bs = [] then ⟨-1, buf, later⟩
        else
          let cap := headMax - buf.length
          -- an end may have begun in the last three bytes of what was there
          match findHeadEnd (buf ++ bs.take cap) (buf.length - 3) with
          | some e => ⟨e, buf ++ bs.take cap, unread cap bs later⟩
          | none =>
            if bs.length ≤ cap then readHeadersLoop late (i + 1) (buf ++ bs) later
            else ⟨-2, buf ++ bs.take cap, unread cap bs later⟩  -- the buffer is full

def readHeaders (late : Nat → Bool) (rs : List Recv) : Head := readHeadersLoop late 0 [] rs

/-! ## 2. The first end of a header -/

/-- The bytes end in an empty line. -/
def HeadEnds (p : List UInt8) : Prop := crlfEnd <:+ p ∨ lfEnd <:+ p

instance (p : List UInt8) : Decidable (HeadEnds p) := inferInstanceAs (Decidable (_ ∨ _))

/-- The length of the shortest prefix that ends in an empty line. -/
def headEnd (s : List UInt8) : Option Nat :=
  (List.range (s.length + 1)).find? fun e => HeadEnds (s.take e)

/-- What reading the header of a stream is to return. -/
def headLength (s : List UInt8) : Int :=
  match headEnd (s.take headMax) with
  | some e => e
  | none => if headMax ≤ s.length then -2 else -1

/-- How much of the stream has arrived when its byte `e` has. -/
def arrived : List (List UInt8) → Nat → Nat
  | [], _ => 0
  | c :: cs, e => if e ≤ c.length then c.length else c.length + arrived cs (e - c.length)

/-- The header ends in LF LF, and a CR LF CR LF has arrived together with that end. -/
def Overtaken (chunks : List (List UInt8)) : Prop :=
  ∃ e, headEnd (chunks.flatten.take headMax) = some e ∧ lfEnd <:+ chunks.flatten.take e ∧
    crlfEnd <:+: chunks.flatten.take (min headMax (arrived chunks e))

theorem headEnd_eq_some {s : List UInt8} {e : Nat} :
    headEnd s = some e ↔ e ≤ s.length ∧ HeadEnds (s.take e) ∧ ∀ j < e, ¬ HeadEnds (s.take j) := by
  rw [headEnd, List.find?_range_eq_some]
  simp only [List.mem_range, Nat.lt_succ_iff, decide_eq_true_eq, Bool.not_eq_true',
    decide_eq_false_iff_not]
  tauto

theorem headEnd_eq_none {s : List UInt8} : headEnd s = none ↔ ∀ e, ¬ HeadEnds (s.take e) := by
  rw [headEnd, List.find?_range_eq_none]
  simp only [Nat.lt_succ_iff, Bool.not_eq_true', decide_eq_false_iff_not]
  constructor
  · intro h e
    rw [← Search.take_min]
    exact h _ (Nat.min_le_right _ _)
  · exact fun h e _ => h e

/-- No bytes end in both spellings. -/
theorem not_both_ends {p : List UInt8} (hcrlf : crlfEnd <:+ p) (hlf : lfEnd <:+ p) : False := by
  obtain ⟨pre, rfl⟩ := hcrlf
  have h := List.suffix_of_suffix_length_le hlf
    (List.suffix_append (pre ++ [cr, nl]) [cr, nl] |>.trans (by simp [crlfEnd])) (by decide)
  exact absurd (h.eq_of_length (by decide)) (by decide)

/-- What a search finds that starts three bytes before the bytes that have just arrived, when there
was no end among the others. -/
theorem findHeadEnd_spec {p : List UInt8} {last : Nat} (hlast : last ≤ p.length)
    (hnone : ∀ e ≤ last, ¬ HeadEnds (p.take e)) :
    match findHeadEnd p (last - 3) with
    | some e => e ≤ p.length ∧
        ((crlfEnd <:+ p.take e ∧ ∀ j < e, ¬ crlfEnd <:+ p.take j) ∨
          ((∀ j, ¬ crlfEnd <:+ p.take j) ∧ lfEnd <:+ p.take e ∧ ∀ j < e, ¬ lfEnd <:+ p.take j))
    | none => ∀ e, ¬ HeadEnds (p.take e) := by
  have hcrlf := Search.find_drop crlfEnd (n := last - 3) (s := p) (by omega) fun j hj hat =>
    hnone (j + 4) (by omega) (.inl ((Search.suffix_take_iff (by omega)).mpr
      ⟨Nat.le_add_left _ _, hat⟩))
  have hlf := Search.find_drop lfEnd (n := last - 3) (s := p) (by omega) fun j hj hat =>
    hnone (j + 2) (by omega) (.inr ((Search.suffix_take_iff (by omega)).mpr
      ⟨Nat.le_add_left _ _, hat⟩))
  rw [findHeadEnd]
  cases h₁ : Search.find crlfEnd (p.drop (last - 3)) with
  | some i =>
    rw [h₁, Option.map_some] at hcrlf
    obtain ⟨hle, hsuf, hmin⟩ := Search.find_some_end hcrlf
    exact ⟨hle, .inl ⟨hsuf, hmin⟩⟩
  | none =>
    rw [h₁, Option.map_none] at hcrlf
    have hno := Search.find_none_end hcrlf
    cases h₂ : Search.find lfEnd (p.drop (last - 3)) with
    | some i =>
      rw [h₂, Option.map_some] at hlf
      obtain ⟨hle, hsuf, hmin⟩ := Search.find_some_end hlf
      exact ⟨hle, .inr ⟨hno, hsuf, hmin⟩⟩
    | none =>
      rw [h₂, Option.map_none] at hlf
      exact fun e h => h.elim (hno e) (Search.find_none_end hlf e)

/-! ## 3. Reading in chunks -/

/-- `Overtaken` when `buf` has been received already. -/
def OvertakenBehind (buf : List UInt8) (chunks : List (List UInt8)) : Prop :=
  ∃ e, headEnd ((buf ++ chunks.flatten).take headMax) = some e ∧
    lfEnd <:+ (buf ++ chunks.flatten).take e ∧
    crlfEnd <:+: (buf ++ chunks.flatten).take
      (min headMax (buf.length + arrived chunks (e - buf.length)))

theorem overtakenBehind_nil (chunks : List (List UInt8)) :
    OvertakenBehind [] chunks ↔ Overtaken chunks := by
  simp only [OvertakenBehind, Overtaken, List.nil_append, List.length_nil, Nat.zero_add,
    Nat.sub_zero]

/-- The end of the header does not depend on what follows it. -/
theorem headEnd_append {p u : List UInt8} {e : Nat} (h : headEnd p = some e) :
    headEnd (p ++ u) = some e := by
  obtain ⟨hle, hend, hmin⟩ := headEnd_eq_some.mp h
  refine headEnd_eq_some.mpr ⟨by rw [List.length_append]; omega, ?_, fun j hj => ?_⟩
  · rwa [List.take_append_of_le_length hle]
  · rw [List.take_append_of_le_length (by omega)]
    exact hmin j hj

section
variable {buf part : List UInt8} {e : Nat}

/-- Where a CR LF CR LF has been found, the first end is that one or an earlier LF LF. -/
theorem found_crlf (hsuf : crlfEnd <:+ (buf ++ part).take e)
    (hmin : ∀ j < e, ¬ crlfEnd <:+ (buf ++ part).take j) :
    ∃ j, headEnd (buf ++ part) = some j ∧ j ≤ e ∧
      (lfEnd <:+ (buf ++ part).take j ∧ j ≠ e ∨ ¬ lfEnd <:+ (buf ++ part).take j ∧ j = e) := by
  obtain ⟨j, hj⟩ : ∃ j, headEnd (buf ++ part) = some j := by
    rw [← Option.isSome_iff_exists, Option.isSome_iff_ne_none]
    exact fun hnone => headEnd_eq_none.mp hnone e (.inl hsuf)
  obtain ⟨-, hend, hfirst⟩ := headEnd_eq_some.mp hj
  have hje : j ≤ e := by
    by_contra hlt
    exact hfirst e (by omega) (.inl hsuf)
  refine ⟨j, hj, hje, ?_⟩
  rcases hend with hcrlf | hlf
  · have heq : j = e := by
      by_contra hne
      exact hmin j (by omega) hcrlf
    exact .inr ⟨fun hlf => not_both_ends hcrlf hlf, heq⟩
  · exact .inl ⟨hlf, fun heq => not_both_ends (heq ▸ hsuf) hlf⟩

end

/-- What stands in the buffer when a chunk has arrived. -/
def filled (buf c : List UInt8) : List UInt8 := buf ++ c.take (headMax - buf.length)

theorem length_filled {buf : List UInt8} (hbuf : buf.length ≤ headMax) (c : List UInt8) :
    (filled buf c).length = min headMax (buf.length + c.length) := by
  rw [filled, List.length_append, List.length_take]
  omega

theorem take_length_filled (buf c u : List UInt8) :
    (buf ++ (c ++ u)).take (filled buf c).length = filled buf c := by
  rw [filled, List.length_append, List.take_length_add_append,
    List.take_append_of_le_length (by rw [List.length_take]; omega)]
  congr 1
  rw [List.length_take, Search.take_min]

theorem take_headMax_filled {buf : List UInt8} (hbuf : buf.length ≤ headMax) (c u : List UInt8) :
    (buf ++ (c ++ u)).take headMax =
      filled buf c ++ ((buf ++ (c ++ u)).take headMax).drop (filled buf c).length := by
  have hlen := length_filled hbuf c
  conv_lhs => rw [← List.take_append_drop (filled buf c).length (List.take headMax _)]
  rw [List.take_take, Nat.min_eq_left (by omega), take_length_filled]

/-- The new bytes do not change what has been searched already. -/
theorem filled_old {buf : List UInt8} (hnone : ∀ e, ¬ HeadEnds (buf.take e)) (c : List UInt8) :
    ∀ e ≤ buf.length, ¬ HeadEnds ((filled buf c).take e) := by
  intro e he
  rw [filled, List.take_append_of_le_length he]
  exact hnone e

/-- A header that does not end within the buffer. -/
theorem never_ends {buf p : List UInt8} {chunks : List (List UInt8)}
    (htake : (buf ++ chunks.flatten).take headMax = p) (hnone : ∀ e, ¬ HeadEnds (p.take e)) :
    (headLength (buf ++ chunks.flatten) =
      if headMax ≤ (buf ++ chunks.flatten).length then -2 else -1) ∧
    ¬ OvertakenBehind buf chunks := by
  have hno : headEnd p = none := headEnd_eq_none.mpr hnone
  rw [headLength, OvertakenBehind, htake, hno]
  refine ⟨rfl, ?_⟩
  rintro ⟨e, he, -⟩
  cases he

section
variable {buf c : List UInt8} {cs : List (List UInt8)} {e : Nat} (hbuf : buf.length ≤ headMax)
include hbuf

variable (cs) in
/-- A first end among the bytes that have just arrived is the first one of the stream. -/
theorem ends_here (hold : ∀ j ≤ buf.length, ¬ HeadEnds ((filled buf c).take j))
    (he : headEnd (filled buf c) = some e) :
    headLength (buf ++ (c :: cs).flatten) = e ∧
      (OvertakenBehind buf (c :: cs) ↔
        lfEnd <:+ (filled buf c).take e ∧ crlfEnd <:+: filled buf c) := by
  obtain ⟨hle, hend, -⟩ := headEnd_eq_some.mp he
  have hlen := length_filled hbuf c
  have htake := take_length_filled buf c cs.flatten
  have hlt : buf.length < e := by
    by_contra hge
    exact hold e (by omega) hend
  have harrived : arrived (c :: cs) (e - buf.length) = c.length := by
    rw [arrived, if_pos (by omega)]
  have hwhole : headEnd ((buf ++ (c ++ cs.flatten)).take headMax) = some e := by
    rw [take_headMax_filled hbuf]
    exact headEnd_append he
  have htake' : (buf ++ (c ++ cs.flatten)).take e = (filled buf c).take e := by
    rw [← htake, List.take_take, Nat.min_eq_left hle]
  rw [headLength, OvertakenBehind, List.flatten_cons, hwhole]
  refine ⟨rfl, ?_⟩
  simp only [Option.some.injEq, exists_eq_left', htake', harrived, ← hlen, htake]

/-- While there is none, an end that is overtaken is so behind the chunk. -/
theorem overtaken_later (hfit : c.length ≤ headMax - buf.length)
    (hnone : ∀ j, ¬ HeadEnds ((buf ++ c).take j)) :
    OvertakenBehind (buf ++ c) cs ↔ OvertakenBehind buf (c :: cs) := by
  have hpre := take_headMax_filled hbuf c cs.flatten
  rw [filled, List.take_of_length_le hfit] at hpre
  rw [OvertakenBehind, OvertakenBehind, List.flatten_cons, List.append_assoc]
  refine exists_congr fun e => and_congr_right fun he => ?_
  have hlt : (buf ++ c).length < e := by
    by_contra hle
    obtain ⟨-, hend, -⟩ := headEnd_eq_some.mp he
    rw [hpre, List.take_append_of_le_length (by omega)] at hend
    exact hnone e hend
  have harrived : (buf ++ c).length + arrived cs (e - (buf ++ c).length) =
      buf.length + arrived (c :: cs) (e - buf.length) := by
    rw [List.length_append] at hlt ⊢
    rw [arrived, if_neg (by omega), Nat.sub_sub]
    omega
  rw [harrived]

/-- Where the search of the chunk finds an end, it is the right one unless it is overtaken there. -/
theorem found_iff (hold : ∀ j ≤ buf.length, ¬ HeadEnds ((filled buf c).take j))
    (hfind : findHeadEnd (filled buf c) (buf.length - 3) = some e) :
    (e : Int) = headLength (buf ++ (c :: cs).flatten) ↔ ¬ OvertakenBehind buf (c :: cs) := by
  have hlen := length_filled hbuf c
  have hspec := findHeadEnd_spec (p := filled buf c) (by omega) hold
  rw [hfind] at hspec
  obtain ⟨hle, ⟨hsuf, hmin⟩ | ⟨hno, hsuf, hmin⟩⟩ := hspec
  · obtain ⟨j, hj, -, hcase⟩ := found_crlf hsuf hmin
    obtain ⟨hret, hover⟩ := ends_here cs hbuf hold hj
    have hinfix : crlfEnd <:+: filled buf c := hsuf.isInfix.trans (List.take_prefix _ _).isInfix
    rw [hret, hover, Int.ofNat_inj]
    rcases hcase with ⟨hlf, hne⟩ | ⟨hlf, heq⟩
    · -- an LF LF stands before it
      exact iff_of_false (Ne.symm hne) fun h => h ⟨hlf, hinfix⟩
    · exact iff_of_true heq.symm fun h => hlf h.1
  · have hj : headEnd (filled buf c) = some e :=
      headEnd_eq_some.mpr ⟨hle, .inr hsuf, fun j hj h => h.elim (hno j) (hmin j hj)⟩
    obtain ⟨hret, hover⟩ := ends_here cs hbuf hold hj
    rw [hret, hover]
    refine iff_of_true rfl fun h => ?_
    obtain ⟨j, -, hj⟩ := Search.exists_suffix_take h.2
    exact hno j hj

end

/-- From a state in which nothing has been found, the right length is returned unless the end is
overtaken. -/
theorem readHeadersLoop_iff (i : Nat) (buf : List UInt8) (chunks : List (List UInt8))
    (hchunks : ∀ c ∈ chunks, c ≠ []) (hnone : ∀ e, ¬ HeadEnds (buf.take e))
    (hbuf : buf.length ≤ headMax) :
    (readHeadersLoop (fun _ => false) i buf (chunks.map .data)).ret =
        headLength (buf ++ chunks.flatten) ↔ ¬ OvertakenBehind buf chunks := by
  induction chunks generalizing i buf with
  | nil =>
    have htake : (buf ++ [].flatten).take headMax = buf := by
      rw [List.flatten_nil, List.append_nil, List.take_of_length_le hbuf]
    obtain ⟨hret, hover⟩ := never_ends htake hnone
    rw [hret, List.flatten_nil, List.append_nil, List.map_nil, readHeadersLoop]
    refine iff_of_true ?_ hover
    split <;> rfl
  | cons c cs ih =>
    obtain ⟨hc, hcs⟩ := List.forall_mem_cons.mp hchunks
    have hlen := length_filled hbuf c
    have hlength : (buf ++ (c :: cs).flatten).length =
        buf.length + (c.length + cs.flatten.length) := by
      rw [List.flatten_cons, List.length_append, List.length_append]
    rw [List.map_cons, readHeadersLoop]
    by_cases hfull : buf.length ≥ headMax
    · have htake : (buf ++ (c :: cs).flatten).take headMax = buf := by
        rw [List.take_append_of_le_length hfull, List.take_of_length_le hbuf]
      obtain ⟨hret, hover⟩ := never_ends htake hnone
      rw [hret, if_pos hfull, if_pos (by omega)]
      exact iff_of_true rfl hover
    have hold := filled_old hnone c
    simp only [if_neg hfull, Bool.false_eq_true, if_false, if_neg hc]
    change (match findHeadEnd (filled buf c) (buf.length - 3) with
      | some e => (⟨e, filled buf c, unread (headMax - buf.length) c (cs.map .data)⟩ : Head)
      | none =>
        if c.length ≤ headMax - buf.length then
          readHeadersLoop (fun _ => false) (i + 1) (buf ++ c) (cs.map .data)
        else ⟨-2, filled buf c, unread (headMax - buf.length) c (cs.map .data)⟩).ret = _ ↔ _
    cases hfind : findHeadEnd (filled buf c) (buf.length - 3) with
    | some e => exact found_iff hbuf hold hfind
    | none =>
      have hspec := findHeadEnd_spec (p := filled buf c) (by omega) hold
      rw [hfind] at hspec
      by_cases hfit : c.length ≤ headMax - buf.length
      · rw [filled, List.take_of_length_le hfit] at hspec hlen
        rw [← overtaken_later hbuf hfit hspec, List.flatten_cons, ← List.append_assoc]
        simp only [if_pos hfit]
        exact ih (i + 1) (buf ++ c) hcs hspec (by omega)
      · have htake : (buf ++ (c :: cs).flatten).take headMax = filled buf c := by
          rw [← take_length_filled buf c cs.flatten, hlen, Nat.min_eq_left (by omega)]
          rfl
        obtain ⟨hret, hover⟩ := never_ends htake hspec
        rw [hret, if_neg hfit, if_pos (by omega)]
        exact iff_of_true rfl hover

/-- `read_headers` returns the length of the header unless a later CR LF CR LF overtakes the LF LF
that ends it, whatever the chunks are in which the stream arrives. -/
theorem readHeaders_iff (chunks : List (List UInt8)) (hchunks : ∀ c ∈ chunks, c ≠ []) :
    (readHeaders (fun _ => false) (chunks.map .data)).ret = headLength chunks.flatten ↔
      ¬ Overtaken chunks := by
  have h := readHeadersLoop_iff 0 [] chunks hchunks
    (fun e => by rw [List.take_nil]; decide) (Nat.zero_le _)
  rwa [List.nil_append, overtakenBehind_nil] at h

/-- A request in one chunk. -/
theorem readHeaders_iff_single :
    (readHeaders (fun _ => false) ([bytes "GET / HTTP/1.0\r\n\r\n"].map .data)).ret =
      headLength [bytes "GET / HTTP/1.0\r\n\r\n"].flatten :=
  (readHeaders_iff [bytes "GET / HTTP/1.0\r\n\r\n"] (by decide +kernel)).mpr (by
    rintro ⟨e, he, hlf, -⟩
    have hend : headEnd ([bytes "GET / HTTP/1.0\r\n\r\n"].flatten.take headMax) = some 18 := by
      decide +kernel
    rw [hend] at he
    cases he
    exact absurd hlf (by decide +kernel))

/-- A script with an empty line of its own, behind a header with LF line ends: read in one piece the
header goes on to the end of the script. -/
theorem not_readHeaders_overtaken :
    ¬ ∀ chunks : List (List UInt8), (∀ c ∈ chunks, c ≠ []) →
      (readHeaders (fun _ => false) (chunks.map .data)).ret = headLength chunks.flatten := by
  intro h
  have hret := h [bytes "POST / HTTP/1.0\nContent-Length: 8\n\necho\r\n\r\n"] (by decide +kernel)
  revert hret
  decide +kernel

/-! ## 4. A header that arrives by itself -/

theorem readHeadersLoop_arrives {rs : List Recv} {s : List UInt8} (h : Arrives rs s) (hs : s ≠ [])
    (i : Nat) (buf : List UInt8) (rs' : List Recv) (hlen : (buf ++ s).length ≤ headMax)
    (hend : headEnd (buf ++ s) = some (buf ++ s).length) :
    ∃ later, readHeadersLoop (fun _ => false) i buf (rs ++ rs') =
      ⟨(buf ++ s).length, buf ++ s, later ++ rs'⟩ ∧ Arrives later [] := by
  have hroom : ¬ buf.length ≥ headMax := by
    have hpos := List.length_pos_iff.mpr hs
    rw [List.length_append] at hlen
    omega
  induction h generalizing i buf with
  | nil => exact absurd rfl hs
  | intr _ ih =>
    obtain ⟨later, hrun, hlater⟩ := ih hs (i + 1) buf hlen hend hroom
    refine ⟨later, ?_, hlater⟩
    rw [List.cons_append, readHeadersLoop, if_neg hroom]
    exact hrun
  | @data bs rs s hbs h ih =>
    obtain ⟨-, hlast, hfirst⟩ := headEnd_eq_some.mp hend
    rw [← List.append_assoc] at hlen hend hlast hfirst ⊢
    have hfit : bs.length ≤ headMax - buf.length := by
      simp only [List.length_append] at hlen
      omega
    have hold : ∀ e ≤ buf.length, ¬ HeadEnds ((buf ++ bs).take e) := by
      intro e he
      have hlt : e < (buf ++ bs ++ s).length := by
        have hpos := List.length_pos_iff.mpr hbs
        simp only [List.length_append]
        omega
      have hno := hfirst e hlt
      rwa [List.take_append_of_le_length (by rw [List.length_append]; omega)] at hno
    have hspec := findHeadEnd_spec (p := buf ++ bs) (by rw [List.length_append]; omega) hold
    rw [List.cons_append, readHeadersLoop, if_neg hroom]
    simp only [Bool.false_eq_true, if_false, if_neg hbs, List.take_of_length_le hfit, unread,
      if_pos hfit]
    -- what is found is an end of the header, so it is the last byte of it
    have hat : ∀ e ≤ (buf ++ bs).length, HeadEnds ((buf ++ bs).take e) →
        e = (buf ++ bs ++ s).length := by
      intro e he hends
      by_contra hne
      refine hfirst e ?_ ?_
      · rw [List.length_append] at hne ⊢
        omega
      · rwa [List.take_append_of_le_length he]
    cases hfind : findHeadEnd (buf ++ bs) (buf.length - 3) with
    | some e =>
      rw [hfind] at hspec
      obtain ⟨he, hcase⟩ := hspec
      have heq := hat e he (hcase.elim (fun h => .inl h.1) fun h => .inr h.2.1)
      have hnil : s = [] := by
        rw [heq, List.length_append] at he
        exact List.eq_nil_of_length_eq_zero (by omega)
      subst hnil
      rw [List.append_nil] at heq ⊢
      exact ⟨rs, by rw [heq], h⟩
    | none =>
      rw [hfind] at hspec
      have hs' : s ≠ [] := by
        rintro rfl
        rw [List.append_nil] at hlast
        exact hspec _ hlast
      refine ih hs' (i + 1) (buf ++ bs) hlen hend ?_
      have hpos := List.length_pos_iff.mpr hs'
      rw [List.length_append] at hlen
      omega

/-- A header that does not share a chunk with what follows it is all that is read. -/
theorem readHeaders_arrives {rs : List Recv} {req : List UInt8} (h : Arrives rs req)
    (rs' : List Recv) (hlen : req.length ≤ headMax) (hend : headEnd req = some req.length) :
    ∃ later, readHeaders (fun _ => false) (rs ++ rs') = ⟨req.length, req, later ++ rs'⟩ ∧
      Arrives later [] := by
  refine readHeadersLoop_arrives h ?_ 0 [] rs' hlen hend
  rintro rfl
  exact absurd (headEnd_eq_some.mp hend).2.1 (by decide)

/-! ## 5. What has been read and what has not -/

theorem findHeadEnd_le {p : List UInt8} {start e : Nat} (h : findHeadEnd p start = some e) :
    e ≤ p.length := by
  have hroom : ∀ (pat : List UInt8) (i : Nat), pat <+: (p.drop start).drop i → pat ≠ [] →
      start + i + pat.length ≤ p.length := by
    intro pat i hpre hpat
    have hpos := List.length_pos_iff.mpr hpat
    have hlen := hpre.length_le
    rw [List.length_drop, List.length_drop] at hlen
    omega
  rw [findHeadEnd] at h
  split at h
  · next i hi =>
    cases h
    exact hroom crlfEnd i (Search.find_eq_some hi).2.1 (List.cons_ne_nil _ _)
  · split at h
    · next i hi =>
      cases h
      exact hroom lfEnd i (Search.find_eq_some hi).2.1 (List.cons_ne_nil _ _)
    · cases h

theorem readHeadersLoop_received (late : Nat → Bool) (i : Nat) (buf : List UInt8) (rs : List Recv)
    (h : 0 ≤ (readHeadersLoop late i buf rs).ret) :
    (readHeadersLoop late i buf rs).ret.toNat ≤ (readHeadersLoop late i buf rs).buf.length ∧
      (readHeadersLoop late i buf rs).buf ++ received (readHeadersLoop late i buf rs).later =
        buf ++ received rs := by
  have hfail₁ : ¬ (0 : Int) ≤ -1 := by decide
  have hfail₂ : ¬ (0 : Int) ≤ -2 := by decide
  induction rs generalizing i buf with
  | nil =>
    rw [readHeadersLoop] at h
    split at h
    · exact absurd h hfail₂
    · exact absurd h hfail₁
  | cons r rs ih =>
    rw [readHeadersLoop.eq_def] at h ⊢
    simp only at h ⊢
    by_cases hfull : buf.length ≥ headMax
    · rw [if_pos hfull] at h
      exact absurd h hfail₂
    rw [if_neg hfull] at h ⊢
    by_cases hlate : late i = true
    · rw [if_pos hlate] at h
      exact absurd h hfail₁
    rw [if_neg hlate] at h ⊢
    cases r with
    | intr =>
      rw [received_intr]
      exact ih (i + 1) buf h
    | error => exact absurd h hfail₁
    | data bs =>
      simp only at h ⊢
      by_cases hbs : bs = []
      · rw [if_pos hbs] at h
        exact absurd h hfail₁
      rw [if_neg hbs] at h ⊢
      cases hfind : findHeadEnd (buf ++ bs.take (headMax - buf.length)) (buf.length - 3) with
      | some e =>
        refine ⟨findHeadEnd_le hfind, ?_⟩
        simp only
        rw [List.append_assoc, received_unread, received_data]
      | none =>
        rw [hfind] at h
        simp only at h ⊢
        by_cases hfit : bs.length ≤ headMax - buf.length
        · rw [if_pos hfit] at h ⊢
          obtain ⟨hle, hall⟩ := ih (i + 1) (buf ++ bs) h
          refine ⟨hle, ?_⟩
          rw [hall, received_data, List.append_assoc]
        · rw [if_neg hfit] at h
          exact absurd h hfail₂

/-- The header lies within `hbuf`, and nothing of the stream has been lost. -/
theorem readHeaders_received {late : Nat → Bool} {rs : List Recv}
    (h : 0 ≤ (readHeaders late rs).ret) :
    (readHeaders late rs).ret.toNat ≤ (readHeaders late rs).buf.length ∧
      (readHeaders late rs).buf ++ received (readHeaders late rs).later = received rs :=
  readHeadersLoop_received late 0 [] rs h

end Net
