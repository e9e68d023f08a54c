import Mathlib.Tactic.SplitIfs
import ZteWifi.J2t.Trace

/-!
# `j2t.c` refines the abstract machine

The reader of the streaming version is related to the list of unread bytes by `Reader.content`, the
line buffer to the command list by `LineBuf.execAll`.  First the loops that read one byte at a time
are shown to compute the list functions of `J2t.Trace`; the recursive functions then follow by the
rules of `Prog.Sim`.
-/

open Ascii LineBuf

namespace J2t.Stream

/-- The state of the streaming version holds what the abstract state says.  The bound on the
pushback stack leaves room for the byte a look ahead puts back. -/
structure Refines (s : St) (t : Trace.St) : Prop where
  content : s.rd.content = t.rest
  pb : s.rd.pb.length ≤ 6
  out : s.out = execAll t.cmds .empty
  active : s.active = t.active
  peak : s.peak = t.peak

/-- What is left of the relation after an error: nothing more is read. -/
structure Failed (s : St) (t : Trace.St) : Prop where
  out : s.out = execAll t.cmds .empty
  peak : s.peak = t.peak

theorem Refines.failed {s : St} {t : Trace.St} (h : Refines s t) : Failed s t := ⟨h.out, h.peak⟩

/-! ## 1. What the reading loops compute -/

@[simp] theorem rdGet_bind {β : Type} (k : Option UInt8 → Prog St β) (s : St) :
    (rdGet >>= k) s = k s.rd.rdGet.1 { s with rd := s.rd.rdGet.2 } := rfl

@[simp] theorem rdPeek_bind {β : Type} (k : Option UInt8 → Prog St β) (s : St) :
    (rdPeek >>= k) s = k s.rd.rdPeek.1 { s with rd := s.rd.rdPeek.2 } := rfl

@[simp] theorem rdUnget_bind {β : Type} (c : Option UInt8) (k : Unit → Prog St β) (s : St) :
    (rdUnget c >>= k) s = k () { s with rd := s.rd.rdUnget c } := rfl

@[simp] theorem out_bind {β : Type} (c : Cmd) (k : Unit → Prog St β) (s : St) :
    (out c >>= k) s = k () { s with out := exec c s.out } := rfl

theorem size_eq (r : Reader) : Reader.size r = r.content.length := by
  rw [Reader.size, Reader.content, List.length_append]

/-- A loop that skips white space, whatever it tests for: it drops the longest prefix. -/
theorem skipWsLoop_spec (n : Nat) (s : St) (hpb : s.rd.pb.length ≤ rdPb)
    (hn : s.rd.content.length < n) :
    ∃ rd, skipWsLoop n s = some (some (), { s with rd := rd }) ∧
      rd.content = s.rd.content.dropWhile isspace ∧
      rd.pb.length ≤ max s.rd.pb.length 1 := by
  induction n generalizing s with
  | zero => omega
  | succ n ih =>
    have hpeek := Reader.rdPeek_pb_length s.rd
    have hcontent := Reader.rdPeek_content hpb
    rw [skipWsLoop, rdPeek_bind, Reader.rdPeek_fst]
    cases hc : s.rd.content with
    | nil => exact ⟨_, rfl, by rw [hcontent, hc, List.dropWhile_nil], hpeek⟩
    | cons c cs =>
      by_cases hsp : isspace c = true
      · simp only [List.head?_cons, hsp, if_true, rdGet_bind]
        have hrest : s.rd.rdPeek.2.rdGet.2.content = cs := by
          rw [Reader.rdGet_content, hcontent, hc, List.tail_cons]
        have hlen : s.rd.rdPeek.2.rdGet.2.pb.length ≤ max s.rd.pb.length 1 - 1 := by
          rw [Reader.rdGet_pb, List.length_tail]
          omega
        rw [hc, List.length_cons] at hn
        obtain ⟨rd, hrun, hrd, hlen'⟩ := ih { s with rd := s.rd.rdPeek.2.rdGet.2 }
          (by simp only [rdPb] at hpb ⊢; omega) (by simp only [hrest]; omega)
        refine ⟨rd, hrun, ?_, by simp only at hlen'; omega⟩
        rw [hrd, List.dropWhile_cons_of_pos hsp]
        exact congrArg _ hrest
      · simp only [List.head?_cons, hsp, Bool.false_eq_true, if_false, Prog.pure_apply]
        exact ⟨_, rfl, by rw [hcontent, hc, List.dropWhile_cons_of_neg hsp], hpeek⟩

theorem skipWs_spec (s : St) (hpb : s.rd.pb.length ≤ rdPb) :
    ∃ rd, skipWs s = some (some (), { s with rd := rd }) ∧
      rd.content = s.rd.content.dropWhile isspace ∧
      rd.pb.length ≤ max s.rd.pb.length 1 := by
  rw [skipWs, Prog.get_bind_apply]
  exact skipWsLoop_spec _ s hpb (by rw [size_eq]; omega)

/-- The answer of `match_lit`; on a yes the literal and nothing else has been read. -/
theorem matchLit_spec (l : List UInt8) (s : St) (hpb : s.rd.pb.length ≤ rdPb) :
    ∃ rd b, matchLit l s = some (some b, { s with rd := rd }) ∧
      (b = true ↔ l <+: s.rd.content ∧ ¬ ((s.rd.content.drop l.length).head?.any isalnum)) ∧
      (b = true → rd.content = s.rd.content.drop l.length) ∧
      rd.pb.length ≤ max s.rd.pb.length 1 := by
  induction l generalizing s with
  | nil =>
    have hcontent := Reader.rdPeek_content hpb
    rw [matchLit, rdPeek_bind, Reader.rdPeek_fst]
    cases hc : s.rd.content with
    | nil => exact ⟨_, true, rfl, by simp, fun _ => by rw [hcontent, hc]; rfl,
        Reader.rdPeek_pb_length _⟩
    | cons c cs => exact ⟨_, !isalnum c, rfl, by simp, fun _ => by rw [hcontent, hc]; rfl,
        Reader.rdPeek_pb_length _⟩
  | cons x l ih =>
    have hpeek := Reader.rdPeek_pb_length s.rd
    have hcontent := Reader.rdPeek_content hpb
    rw [matchLit, rdPeek_bind, Reader.rdPeek_fst]
    by_cases hx : s.rd.content.head? = some x
    · obtain ⟨cs, hc⟩ : ∃ cs, s.rd.content = x :: cs := by
        cases hc : s.rd.content with
        | nil => rw [hc] at hx; cases hx
        | cons c cs => rw [hc, List.head?_cons] at hx; cases hx; exact ⟨cs, rfl⟩
      rw [if_pos hx, rdGet_bind]
      have hrest : s.rd.rdPeek.2.rdGet.2.content = cs := by
        rw [Reader.rdGet_content, hcontent, hc, List.tail_cons]
      have hlen : s.rd.rdPeek.2.rdGet.2.pb.length ≤ max s.rd.pb.length 1 - 1 := by
        rw [Reader.rdGet_pb, List.length_tail]
        omega
      obtain ⟨rd, b, hrun, hb, hrd, hlen'⟩ := ih { s with rd := s.rd.rdPeek.2.rdGet.2 }
        (by simp only [rdPb] at hpb ⊢; omega)
      simp only [hrest] at hb hrd hlen'
      refine ⟨rd, b, hrun, ?_, fun h => by rw [hrd h, hc]; rfl, by omega⟩
      rw [hb, hc, List.cons_prefix_cons]
      simp
    · rw [if_neg hx]
      refine ⟨_, false, rfl, ?_, nofun, hpeek⟩
      simp only [Bool.false_eq_true, false_iff, not_and]
      rintro ⟨t, ht⟩
      rw [← ht] at hx
      exact absurd rfl hx

theorem parseNumberLoop_spec (n : Nat) (s : St) (hpb : s.rd.pb.length ≤ rdPb)
    (hn : s.rd.content.length < n) :
    ∃ rd, parseNumberLoop n s =
        some (some (), { s with
          rd := rd
          out := execAll ((s.rd.content.takeWhile isNumChar).map .byte) s.out }) ∧
      rd.content = s.rd.content.dropWhile isNumChar ∧
      rd.pb.length ≤ max s.rd.pb.length 1 := by
  induction n generalizing s with
  | zero => omega
  | succ n ih =>
    have hpeek := Reader.rdPeek_pb_length s.rd
    have hcontent := Reader.rdPeek_content hpb
    rw [parseNumberLoop, rdPeek_bind, Reader.rdPeek_fst]
    cases hc : s.rd.content with
    | nil => exact ⟨_, rfl, by rw [hcontent, hc, List.dropWhile_nil], hpeek⟩
    | cons c cs =>
      by_cases hnum : isNumChar c = true
      · simp only [List.head?_cons, hnum, if_true, rdGet_bind, out_bind]
        have hrest : s.rd.rdPeek.2.rdGet.2.content = cs := by
          rw [Reader.rdGet_content, hcontent, hc, List.tail_cons]
        have hlen : s.rd.rdPeek.2.rdGet.2.pb.length ≤ max s.rd.pb.length 1 - 1 := by
          rw [Reader.rdGet_pb, List.length_tail]
          omega
        rw [hc, List.length_cons] at hn
        obtain ⟨rd, hrun, hrd, hlen'⟩ :=
          ih { s with rd := s.rd.rdPeek.2.rdGet.2, out := exec (.byte c) s.out }
            (by simp only [rdPb] at hpb ⊢; omega) (by simp only [hrest]; omega)
        simp only [hrest] at hrun hrd hlen'
        refine ⟨rd, ?_, ?_, by omega⟩
        · rw [List.takeWhile_cons_of_pos hnum]
          exact hrun
        · rw [hrd, List.dropWhile_cons_of_pos hnum]
      · simp only [List.head?_cons, hnum, Bool.false_eq_true, if_false, Prog.pure_apply]
        refine ⟨_, ?_, by rw [hcontent, hc, List.dropWhile_cons_of_neg hnum], hpeek⟩
        rw [List.takeWhile_cons_of_neg hnum]
        rfl

/-- Reading hex digits takes as many bytes off the pushback stack. -/
theorem readHex_some {n v w : Nat} {l s' : List UInt8} (s : St)
    (h : Trace.hexDigits n v s.rd.content = some (w, s')) :
    ∃ rd, readHex n l v s =
        some (some (l ++ s.rd.content.take n, w), { s with rd := rd }) ∧
      rd.content = s' ∧ rd.pb = s.rd.pb.drop n := by
  induction n generalizing v l s with
  | zero =>
    simp only [Trace.hexDigits, Option.some.injEq, Prod.mk.injEq] at h
    refine ⟨s.rd, ?_, h.2, rfl⟩
    rw [readHex, h.1, List.take_zero, List.append_nil]
    rfl
  | succ n ih =>
    cases hc : s.rd.content with
    | nil => rw [hc] at h; cases h
    | cons c cs =>
      rw [hc] at h
      simp only [Trace.hexDigits] at h
      rw [readHex, rdGet_bind, Reader.rdGet_fst, hc, List.head?_cons]
      cases hd : hexDigit c with
      | none => rw [hd] at h; cases h
      | some d =>
        rw [hd] at h
        have hrest : s.rd.rdGet.2.content = cs := by rw [Reader.rdGet_content, hc, List.tail_cons]
        obtain ⟨rd, hrun, hrd, hpb⟩ := ih (l := l ++ [c]) { s with rd := s.rd.rdGet.2 }
          (by simp only [hrest]; exact h)
        simp only [hrest] at hrun
        refine ⟨rd, ?_, hrd, ?_⟩
        · simp only [hd]
          rw [hrun, List.take_succ_cons, List.append_assoc]
          rfl
        · rw [hpb, Reader.rdGet_pb, List.drop_tail]

theorem readHex_none {n v : Nat} {l : List UInt8} (s : St)
    (h : Trace.hexDigits n v s.rd.content = none) :
    ∃ rd, readHex n l v s = some (none, { s with rd := rd }) := by
  induction n generalizing v l s with
  | zero => cases h
  | succ n ih =>
    rw [readHex, rdGet_bind, Reader.rdGet_fst]
    cases hc : s.rd.content with
    | nil => exact ⟨_, rfl⟩
    | cons c cs =>
      rw [hc] at h
      simp only [Trace.hexDigits] at h
      rw [List.head?_cons]
      cases hd : hexDigit c with
      | none => exact ⟨_, by simp only [hd]; rfl⟩
      | some d =>
        rw [hd] at h
        have hrest : s.rd.rdGet.2.content = cs := by rw [Reader.rdGet_content, hc, List.tail_cons]
        obtain ⟨rd, hrun⟩ := ih (l := l ++ [c]) { s with rd := s.rd.rdGet.2 }
          (by simp only [hrest]; exact h)
        exact ⟨rd, by simp only [hd]; exact hrun⟩

/-! ## 2. Strings -/

/-- The program scans a token as the abstract machine does: same commands, same outcome, and on
success the same input left. -/
def Computes (m : Prog St Unit) (s : St) (r : Trace.Scanned) : Prop :=
  ∃ rd, m s = some (r.2.map fun _ => (), { s with rd := rd, out := execAll r.1 s.out }) ∧
    ∀ rest, r.2 = some rest → rd.content = rest ∧ rd.pb.length ≤ 6

theorem Computes.bind {m n : Prog St Unit} {s : St} {cs : List Cmd} {rest : List UInt8}
    {r : Trace.Scanned} (h₁ : Computes m s (cs, some rest))
    (h₂ : ∀ s', s'.rd.content = rest → s'.rd.pb.length ≤ 6 → Computes n s' r) :
    Computes (m >>= fun _ => n) s (cs ++ r.1, r.2) := by
  obtain ⟨rd₁, hrun₁, hrest₁⟩ := h₁
  obtain ⟨hcontent, hpb⟩ := hrest₁ rest rfl
  obtain ⟨rd₂, hrun₂, hrest₂⟩ := h₂ { s with rd := rd₁, out := execAll cs s.out } hcontent hpb
  refine ⟨rd₂, ?_, hrest₂⟩
  rw [Prog.bind_of_ok hrun₁, hrun₂, execAll_append]

theorem Computes.bind_none {m n : Prog St Unit} {s : St} {cs : List Cmd}
    (h₁ : Computes m s (cs, none)) : Computes (m >>= fun _ => n) s (cs, none) := by
  obtain ⟨rd₁, hrun₁, -⟩ := h₁
  exact ⟨rd₁, by rw [Prog.bind_of_fail hrun₁]; rfl, nofun⟩

/-- Reading on with another reader first. -/
theorem Computes.of_read {m n : Prog St Unit} {s : St} {d : Reader} {r : Trace.Scanned}
    (hrun : m s = n { s with rd := d }) (h : Computes n { s with rd := d } r) :
    Computes m s r := by
  obtain ⟨rd', hrun', hrest⟩ := h
  exact ⟨rd', hrun.trans hrun', hrest⟩

theorem Computes.rdGet_bind {k : Option UInt8 → Prog St Unit} {s : St} {r : Trace.Scanned}
    (h : Computes (k s.rd.content.head?) { s with rd := s.rd.rdGet.2 } r) :
    Computes (rdGet >>= k) s r :=
  h.of_read (by rw [Stream.rdGet_bind, Reader.rdGet_fst])

theorem computes_out (c : Cmd) {s : St} {r : List UInt8} (hr : s.rd.content = r)
    (hpb : s.rd.pb.length ≤ 6) : Computes (out c) s ([c], some r) := by
  refine ⟨s.rd, rfl, ?_⟩
  rintro rest ⟨⟩
  exact ⟨hr, hpb⟩

theorem computes_pure {s : St} {r : List UInt8} (hr : s.rd.content = r)
    (hpb : s.rd.pb.length ≤ 6) : Computes (pure ()) s ([], some r) := by
  refine ⟨s.rd, rfl, ?_⟩
  rintro rest ⟨⟩
  exact ⟨hr, hpb⟩

theorem computes_fail (s : St) : Computes Prog.fail s ([], none) := ⟨s.rd, rfl, nofun⟩

/-- With an empty stack a look ahead leaves one byte on it, which the next read takes off. -/
theorem rdPeek_rdGet_of_pb_nil {r : Reader} {c : UInt8} {cs : List UInt8} (hpb : r.pb = [])
    (hc : r.content = c :: cs) :
    r.rdPeek.1 = some c ∧ r.rdPeek.2.rdGet.2.content = cs ∧ r.rdPeek.2.rdGet.2.pb = [] := by
  refine ⟨by rw [Reader.rdPeek_fst, hc, List.head?_cons], ?_, ?_⟩
  · rw [Reader.rdGet_content, Reader.rdPeek_content (by rw [hpb]; decide), hc, List.tail_cons]
  · have h := Reader.rdPeek_pb_length r
    rw [hpb] at h
    rw [Reader.rdGet_pb, ← List.length_eq_zero_iff, List.length_tail]
    simp only [List.length_nil] at h
    omega

theorem lowSurrogate_of_not {v : Nat} {s : List UInt8} (h : s.take 2 ≠ [backslash, 0x75]) :
    Trace.lowSurrogate v s = ([], some s) := by
  rw [Trace.lowSurrogate, if_neg h]

/-- On an empty stack there is room for the six bytes of an escape. -/
theorem ungetEscape_computes (s : St) (hex : List UInt8) (hlen : hex.length = 4)
    (hpb : s.rd.pb = []) :
    Computes (ungetEscape hex) s ([], some (backslash :: 0x75 :: (hex ++ s.rd.content))) := by
  obtain ⟨a, b, c, d, rfl⟩ : ∃ a b c d, hex = [a, b, c, d] := by
    match hex, hlen with
    | [a, b, c, d], _ => exact ⟨a, b, c, d, rfl⟩
  obtain ⟨⟨pb, pos, input⟩, out, active, peak⟩ := s
  subst hpb
  refine ⟨_, rfl, ?_⟩
  rintro rest ⟨⟩
  constructor <;> simp [Reader.rdUnget, Reader.content]

/-- The stack is empty after the digits of the second escape, so the whole of it fits back. -/
theorem readLowSurrogate_computes (v : Nat) (s : St) (hpb : s.rd.pb = []) :
    Computes (readLowSurrogate v) s (Trace.lowSurrogate v (backslash :: 0x75 :: s.rd.content)) := by
  have htake : (backslash :: 0x75 :: s.rd.content).take 2 = [backslash, 0x75] := rfl
  rw [Trace.lowSurrogate, if_pos htake, List.drop_succ_cons, List.drop_succ_cons, List.drop_zero,
    readLowSurrogate]
  cases h : Trace.hexDigits 4 0 s.rd.content with
  | none =>
    obtain ⟨rd, hrun⟩ := readHex_none (l := []) s h
    exact ⟨rd, by rw [Prog.bind_of_fail hrun]; rfl, fun _ h => by cases h⟩
  | some r =>
    obtain ⟨lo, s'⟩ := r
    obtain ⟨rd, hrun, hcontent, hpb'⟩ := readHex_some (l := []) s h
    rw [hpb, List.drop_nil] at hpb'
    refine Computes.of_read (Prog.bind_of_ok hrun) ?_
    by_cases hlo : Trace.isLowSurrogate lo
    · have hlt : ¬ (lo < 0xDC00 ∨ 0xDFFF < lo) := by omega
      simp only [if_pos hlo, if_neg hlt]
      exact computes_out _ hcontent (by simp only [hpb', List.length_nil]; omega)
    -- no low surrogate: the four digits are pushed back with the `\u` before them
    · have hlt : lo < 0xDC00 ∨ 0xDFFF < lo := by omega
      have hsplit : s.rd.content.take 4 ++ rd.content = s.rd.content := by
        rw [hcontent, Trace.hexDigits_rest h, List.take_append_drop]
      have hlen : (s.rd.content.take 4).length = 4 := by
        have := Trace.hexDigits_length h
        rw [List.length_take]
        omega
      simp only [if_neg hlo, if_pos hlt, List.nil_append]
      have hunget := ungetEscape_computes { s with rd := rd } _ hlen hpb'
      simp only [hsplit] at hunget
      exact hunget

theorem parseLowSurrogate_computes (v : Nat) (s : St) (hpb : s.rd.pb = []) :
    Computes (parseLowSurrogate v) s (Trace.lowSurrogate v s.rd.content) := by
  have hpeek := Reader.rdPeek_pb_length s.rd
  have hcontent := Reader.rdPeek_content (r := s.rd) (by rw [hpb]; decide)
  rw [hpb, List.length_nil] at hpeek
  by_cases hb : s.rd.content.head? = some backslash
  · obtain ⟨cs, hc⟩ := List.head?_eq_some_iff.mp hb
    obtain ⟨hfst, hcs, hnil⟩ := rdPeek_rdGet_of_pb_nil hpb hc
    by_cases hu : cs.head? = some 0x75
    · obtain ⟨ds, rfl⟩ := List.head?_eq_some_iff.mp hu
      obtain ⟨hfst', hds, hnil'⟩ := rdPeek_rdGet_of_pb_nil hnil hcs
      have hlow := readLowSurrogate_computes v
        { s with rd := s.rd.rdPeek.2.rdGet.2.rdPeek.2.rdGet.2 } hnil'
      rw [hc, ← hds]
      refine Computes.of_read ?_ hlow
      rw [parseLowSurrogate, rdPeek_bind, hfst, if_neg (not_not.mpr rfl), rdGet_bind, rdPeek_bind,
        hfst', if_neg (not_not.mpr rfl), rdGet_bind]
    -- another escape follows: the backslash is pushed back
    · have hpeek' := Reader.rdPeek_pb_length s.rd.rdPeek.2.rdGet.2
      rw [hnil, List.length_nil] at hpeek'
      rw [hc, lowSurrogate_of_not (by rintro h; cases cs <;> simp_all)]
      refine ⟨s.rd.rdPeek.2.rdGet.2.rdPeek.2.rdUnget (some backslash), ?_, ?_⟩
      · rw [parseLowSurrogate, rdPeek_bind, hfst, if_neg (not_not.mpr rfl), rdGet_bind, rdPeek_bind,
          Reader.rdPeek_fst, hcs, if_pos hu]
        rfl
      · rintro rest ⟨⟩
        have := Reader.rdUnget_pb_length (some backslash) s.rd.rdPeek.2.rdGet.2.rdPeek.2
        refine ⟨?_, by omega⟩
        rw [Reader.rdUnget_content _ (by simp only [rdPb]; omega),
          Reader.rdPeek_content (by rw [hnil]; decide), hcs]
  · rw [lowSurrogate_of_not (by rintro h; cases hs : s.rd.content <;> simp_all)]
    refine ⟨s.rd.rdPeek.2, ?_, ?_⟩
    · rw [parseLowSurrogate, rdPeek_bind, Reader.rdPeek_fst, if_pos hb]
      rfl
    · rintro rest ⟨⟩
      exact ⟨hcontent, by omega⟩

theorem parseUnicodeEscape_computes (s : St) (hpb : s.rd.pb.length ≤ 4) :
    Computes parseUnicodeEscape s (Trace.unicodeEscape s.rd.content) := by
  unfold parseUnicodeEscape Trace.unicodeEscape
  cases h : Trace.hexDigits 4 0 s.rd.content with
  | none =>
    obtain ⟨rd, hrun⟩ := readHex_none (l := []) s h
    exact ⟨rd, by rw [Prog.bind_of_fail hrun]; rfl, nofun⟩
  | some r =>
    obtain ⟨v, s'⟩ := r
    obtain ⟨rd, hrun, hcontent, hpb'⟩ := readHex_some (l := []) s h
    rw [List.drop_eq_nil_of_le hpb] at hpb'
    have hlen : rd.pb.length ≤ 6 := by rw [hpb']; decide
    refine Computes.of_read (Prog.bind_of_ok hrun) ?_
    simp only [← hcontent]
    by_cases hhi : Trace.isHighSurrogate v
    · simp only [if_pos hhi]
      exact parseLowSurrogate_computes v { s with rd := rd } hpb'
    · simp only [if_neg hhi]
      by_cases hlo : Trace.isLowSurrogate v
      · simp only [if_pos hlo]
        exact computes_pure rfl hlen
      · simp only [if_neg hlo]
        exact computes_out _ rfl hlen

theorem emitEscape_computes (c : UInt8) (hc : c ≠ 0x75) (s : St) (hpb : s.rd.pb.length ≤ 6) :
    Computes (emitEscape c) s (Trace.escapeCmds c, some s.rd.content) := by
  unfold emitEscape Trace.escapeCmds
  split_ifs <;> first
    | exact computes_pure rfl hpb
    | exact computes_out _ rfl hpb
    | (subst_vars; exact computes_out _ rfl hpb)
    | (exfalso; grind)

/-- The continuation bytes are taken from the stream whatever they are; a stream that ends among
them still has put what there was on the line. -/
theorem emitContinuation_computes (n : Nat) (s : St) (hpb : s.rd.pb.length ≤ 6) :
    Computes (emitContinuation n) s
      (if s.rd.content.length < n then (s.rd.content.map .raw, none)
        else ((s.rd.content.take n).map .raw, some (s.rd.content.drop n))) := by
  induction n generalizing s with
  | zero => exact computes_pure rfl hpb
  | succ n ih =>
    rcases hc : s.rd.content with _ | ⟨c, cs⟩
    · rw [if_pos (by rw [List.length_nil]; omega)]
      refine ⟨s.rd.rdGet.2, ?_, nofun⟩
      rw [emitContinuation, rdGet_bind, Reader.rdGet_fst, hc]
      rfl
    · have hrest : s.rd.rdGet.2.content = cs := by rw [Reader.rdGet_content, hc, List.tail_cons]
      have hlen : s.rd.rdGet.2.pb.length ≤ 6 := by
        rw [Reader.rdGet_pb, List.length_tail]
        omega
      obtain ⟨rd, hrun, hrd⟩ := ih { s with rd := s.rd.rdGet.2, out := exec (.raw c) s.out } hlen
      simp only [hrest] at hrun hrd
      have hstep : emitContinuation (n + 1) s =
          emitContinuation n { s with rd := s.rd.rdGet.2, out := exec (.raw c) s.out } := by
        rw [emitContinuation, rdGet_bind, Reader.rdGet_fst, hc]
        rfl
      simp only [List.length_cons, Nat.add_lt_add_iff_right]
      split at hrun
      · next hlt =>
        rw [if_pos hlt]
        exact ⟨rd, hstep.trans hrun, nofun⟩
      · next hlt =>
        rw [if_neg hlt] at hrd ⊢
        exact ⟨rd, hstep.trans hrun, hrd⟩

/-- Taking a byte off the input. -/
theorem rdGet_cons {r : Reader} {c : UInt8} {cs : List UInt8} (hc : r.content = c :: cs) (n : Nat)
    (hpb : r.pb.length ≤ n + 1) : r.rdGet.2.content = cs ∧ r.rdGet.2.pb.length ≤ n := by
  rw [Reader.rdGet_content, Reader.rdGet_pb, hc, List.length_tail]
  exact ⟨rfl, by omega⟩

/-- The escape with the byte `e`, and then the rest of the loop. -/
theorem emitEscape_bind_computes {m : Prog St Unit} {e : UInt8} {es : List UInt8} {s : St}
    (hs : s.rd.content = es) (hpb : s.rd.pb.length ≤ 4)
    (hloop : ∀ r : List UInt8, r.length ≤ es.length → ∀ s' : St, s'.rd.content = r →
      s'.rd.pb.length ≤ 6 → Computes m s' (Trace.stringBody r)) :
    Computes (emitEscape e >>= fun _ => m) s (Trace.stringBody (backslash :: e :: es)) := by
  by_cases hu : e = 0x75
  · subst hu
    have hesc := parseUnicodeEscape_computes s hpb
    have hprog : emitEscape 0x75 = parseUnicodeEscape := rfl
    rw [hs] at hesc
    rw [Trace.stringBody_unicode, hprog]
    cases hleft : (Trace.unicodeEscape es).2 with
    | none =>
      have heq : Trace.unicodeEscape es = ((Trace.unicodeEscape es).1, none) := Prod.ext rfl hleft
      rw [heq] at hesc ⊢
      exact hesc.bind_none
    | some es' =>
      have heq : Trace.unicodeEscape es = ((Trace.unicodeEscape es).1, some es') :=
        Prod.ext rfl hleft
      have hshorter := Trace.unicodeEscape_length hleft
      rw [heq] at hesc
      exact hesc.bind (hloop es' (by omega))
  · have hesc := emitEscape_computes e hu s (by omega)
    have hbody : Trace.stringBody (backslash :: e :: es) =
        (Trace.escapeCmds e ++ (Trace.stringBody es).1, (Trace.stringBody es).2) := by
      rw [Trace.stringBody.eq_def]
      simp only [if_neg hu]
      rfl
    rw [hs] at hesc
    rw [hbody]
    exact hesc.bind (hloop es (Nat.le_refl _))

theorem emitLoop_computes (n : Nat) (s : St) (hpb : s.rd.pb.length ≤ 6)
    (hn : s.rd.content.length < n) :
    Computes (emitLoop n) s (Trace.stringBody s.rd.content) := by
  induction n generalizing s with
  | zero => omega
  | succ n ih =>
    -- the rest of the loop, on any state whose content is shorter
    have hloop : ∀ (r : List UInt8), r.length < n → ∀ s' : St, s'.rd.content = r →
        s'.rd.pb.length ≤ 6 → Computes (emitLoop n) s' (Trace.stringBody r) :=
      fun r hr s' hs' hpb' => hs' ▸ ih s' hpb' (by rw [hs']; exact hr)
    rw [emitLoop]
    refine Computes.rdGet_bind ?_
    rcases hc : s.rd.content with _ | ⟨c, cs⟩
    · rw [Trace.stringBody]
      exact computes_fail _
    obtain ⟨hrest, hlen⟩ := rdGet_cons hc 5 hpb
    rw [hc, List.length_cons] at hn
    generalize hs₁ : ({ s with rd := s.rd.rdGet.2 } : St) = s₁
    have hrest₁ : s₁.rd.content = cs := by rw [← hs₁]; exact hrest
    have hlen₁ : s₁.rd.pb.length ≤ 5 := by rw [← hs₁]; exact hlen
    simp only [List.head?_cons]
    by_cases hb : c = backslash
    · subst hb
      rw [if_neg (by decide), if_pos rfl]
      refine Computes.rdGet_bind ?_
      rw [hrest₁]
      cases cs with
      | nil =>
        have hopen : Trace.stringBody [backslash] = ([], none) := by
          rw [Trace.stringBody.eq_def]
          rfl
        rw [hopen]
        exact computes_fail _
      | cons e es =>
        obtain ⟨hrest₂, hlen₂⟩ := rdGet_cons hrest₁ 4 hlen₁
        rw [List.length_cons] at hn
        exact emitEscape_bind_computes hrest₂ hlen₂ fun r hr => hloop r (by omega)
    rw [Trace.stringBody.eq_def]
    simp only
    by_cases hq : c = quote
    · simp only [if_pos hq]
      exact computes_pure hrest₁ (by omega)
    simp only [if_neg hq]
    simp only [if_neg hb]
    by_cases hctl : c < 0x20
    · simp only [if_pos hctl]
      exact (computes_out .space hrest₁ (by omega)).bind (hloop cs (by omega))
    simp only [if_neg hctl]
    by_cases hascii : c < 0x80
    · simp only [if_pos hascii]
      exact (computes_out (.byte c) hrest₁ (by omega)).bind (hloop cs (by omega))
    simp only [if_neg hascii]
    -- a character of several bytes, of which the input may lack some
    have hlead := computes_out (.lead (utf8CharLen c) c) hrest₁ (by omega)
    by_cases hshort : cs.length < utf8CharLen c - 1
    · simp only [if_pos hshort]
      refine hlead.bind (r := (cs.map .raw, none)) fun s' hs' hpb' => ?_
      have hcont := emitContinuation_computes (utf8CharLen c - 1) s' hpb'
      rw [hs', if_pos hshort] at hcont
      exact hcont.bind_none
    · simp only [if_neg hshort]
      refine hlead.bind (r := ((cs.take (utf8CharLen c - 1)).map .raw ++ _, _)) fun s' hs' hpb' => ?_
      have hcont := emitContinuation_computes (utf8CharLen c - 1) s' hpb'
      rw [hs', if_neg hshort] at hcont
      exact hcont.bind (hloop _ (by rw [List.length_drop]; omega))

theorem emitJsonString_computes {s : St} {r : List UInt8} (hr : s.rd.content = quote :: r)
    (hpb : s.rd.pb.length ≤ 6) : Computes emitJsonString s (Trace.stringBody r) := by
  obtain ⟨hrest, hlen⟩ := rdGet_cons hr 5 (by omega)
  rw [emitJsonString]
  refine Computes.rdGet_bind ?_
  rw [hr, List.head?_cons, if_neg (not_not.mpr rfl)]
  refine Computes.of_read (n := emitLoop _) (d := s.rd.rdGet.2) (Prog.get_bind_apply _ _) ?_
  have hloop := emitLoop_computes (Reader.size s.rd.rdGet.2 + 1) { s with rd := s.rd.rdGet.2 }
    (by simp only; omega) (by rw [size_eq]; exact Nat.lt_succ_self _)
  simp only [hrest] at hloop
  exact hloop

theorem parseNumber_computes (s : St) (hpb : s.rd.pb.length ≤ 6) :
    Computes parseNumber s (Trace.scanNumber s.rd.content) := by
  obtain ⟨rd, hrun, hrd, hlen⟩ := parseNumberLoop_spec (Reader.size s.rd + 1) s
    (by simp only [rdPb]; omega) (by rw [size_eq]; exact Nat.lt_succ_self _)
  refine ⟨rd, ?_, ?_⟩
  · rw [parseNumber, Prog.get_bind_apply, hrun]
    rfl
  · rintro rest ⟨⟩
    exact ⟨hrd, by omega⟩

theorem parseLit_computes (l : List UInt8) (s : St) (hpb : s.rd.pb.length ≤ 6) :
    Computes (parseLit l) s (Trace.scanLit l s.rd.content) := by
  obtain ⟨rd, b, hrun, hb, hrd, hlen⟩ := matchLit_spec l s (by simp only [rdPb]; omega)
  rw [parseLit]
  refine Computes.of_read (Prog.bind_of_ok hrun) ?_
  rw [Trace.scanLit]
  cases b with
  | true =>
    rw [if_pos (hb.mp rfl), if_pos rfl]
    exact computes_out _ (hrd rfl) (by simp only; omega)
  | false =>
    rw [if_neg (fun h => Bool.noConfusion (hb.mpr h)), if_neg Bool.false_ne_true]
    exact computes_fail _

/-! ## 3. The recursive functions -/

theorem Computes.sim {m : Prog St Unit} {f : List UInt8 → Trace.Scanned} {s : St} {t : Trace.St}
    (hr : Refines s t) (h : Computes m s (f t.rest)) :
    Prog.Rel Failed (fun _ _ => Refines) (m s) (Trace.token f t) := by
  obtain ⟨rd, hrun, hrest⟩ := h
  rw [hrun, Trace.token]
  rcases hscan : f t.rest with ⟨cs, _ | rest⟩
  · refine .error ⟨?_, hr.peak⟩
    rw [execAll_append, hr.out]
  · rw [hscan] at hrest
    obtain ⟨hcontent, hpb⟩ := hrest rest rfl
    refine .value ⟨hcontent, hpb, ?_, hr.active, hr.peak⟩
    rw [execAll_append, hr.out]

/-- `Refines` with the next byte known. -/
def At (c : Option UInt8) (s : St) (t : Trace.St) : Prop := Refines s t ∧ t.rest.head? = c

section
variable {β γ : Type} {Q : β → γ → St → Trace.St → Prop}

theorem sim_peek {k : Option UInt8 → Prog St β} {l : Option UInt8 → Prog Trace.St γ}
    (h : ∀ c, Prog.Sim (At c) Failed Q (k c) (l c)) :
    Prog.Sim Refines Failed Q (rdPeek >>= k) (Trace.peek >>= l) := by
  intro s t hr
  have hpb := hr.pb
  have hpeek := Reader.rdPeek_pb_length s.rd
  have hcontent := Reader.rdPeek_content (r := s.rd) (by simp only [rdPb]; omega)
  have hhead : s.rd.rdPeek.1 = t.rest.head? := by rw [Reader.rdPeek_fst, hr.content]
  rw [rdPeek_bind, hhead]
  refine h t.rest.head? _ t ⟨⟨?_, ?_, hr.out, hr.active, hr.peak⟩, rfl⟩
  · exact hcontent.trans hr.content
  · simp only
    omega

theorem sim_get {k : Option UInt8 → Prog St β} {l : Unit → Prog Trace.St γ}
    (h : ∀ c, Prog.Sim Refines Failed Q (k c) (l ())) :
    Prog.Sim Refines Failed Q (rdGet >>= k) (Trace.next >>= l) := by
  intro s t hr
  have hpb := hr.pb
  rw [rdGet_bind]
  refine h _ _ _ ⟨?_, ?_, hr.out, hr.active, hr.peak⟩
  · rw [Reader.rdGet_content, hr.content]
  · simp only [Reader.rdGet_pb, List.length_tail]
    omega

end

theorem At.refines {c : Option UInt8} {s : St} {t : Trace.St} (h : At c s t) : Refines s t := h.1

/-- The program refines its counterpart. -/
abbrev Sims (m : Prog St Unit) (n : Prog Trace.St Unit) : Prop :=
  Prog.Sim Refines Failed (fun _ _ => Refines) m n

/-- What holds without knowing the next byte also holds knowing it. -/
theorem Sims.at {m : Prog St Unit} {n : Prog Trace.St Unit} (h : Sims m n) (c : Option UInt8) :
    Prog.Sim (At c) Failed (fun _ _ => Refines) m n :=
  h.conseq (fun _ _ => At.refines) (fun _ _ _ _ hr => hr)

theorem sim_skipWs : Sims skipWs Trace.skipWs := by
  intro s t hr
  have hpb := hr.pb
  obtain ⟨rd, hrun, hrd, hlen⟩ := skipWs_spec s (by simp only [rdPb]; omega)
  rw [hrun]
  refine .value ⟨?_, ?_, hr.out, hr.active, hr.peak⟩
  · rw [hrd, hr.content]
  · simp only
    omega

theorem sim_out (c : Cmd) :
    Sims (out c) (Trace.emit [c]) := by
  refine Prog.Sim.modify fun s t hr => ⟨hr.content, hr.pb, ?_, hr.active, hr.peak⟩
  simp only [execAll_append, execAll_cons, execAll_nil, hr.out]

theorem sim_out_at (c : Cmd) (b : Option UInt8) :
    Prog.Sim (At b) Failed (fun _ _ => At b) (out c) (Trace.emit [c]) := by
  refine Prog.Sim.modify fun s t hr => ⟨⟨hr.1.content, hr.1.pb, ?_, hr.1.active, hr.1.peak⟩, hr.2⟩
  simp only [execAll_append, execAll_cons, execAll_nil, hr.1.out]

theorem sim_enter : Sims enter Trace.enter :=
  Prog.Sim.modify fun s t hr => ⟨hr.content, hr.pb, hr.out, by simp only [hr.active],
    by simp only [hr.active, hr.peak]⟩

theorem sim_leave : Sims leave Trace.leave :=
  Prog.Sim.modify fun s t hr => ⟨hr.content, hr.pb, hr.out, by simp only [hr.active], hr.peak⟩

theorem sim_string :
    Prog.Sim (At (some quote)) Failed (fun _ _ => Refines) emitJsonString Trace.string := by
  intro s t hr
  obtain ⟨r, hrest⟩ := List.head?_eq_some_iff.mp hr.2
  refine Computes.sim (f := fun s => Trace.stringBody s.tail) hr.1 ?_
  rw [hrest, List.tail_cons]
  exact emitJsonString_computes (hr.1.content.trans hrest) hr.1.pb

theorem sim_lit (l : List UInt8) :
    Sims (parseLit l) (Trace.lit l) := by
  intro s t hr
  have h := parseLit_computes l s hr.pb
  rw [hr.content] at h
  exact Computes.sim hr h

theorem sim_number : Sims parseNumber Trace.number := by
  intro s t hr
  have h := parseNumber_computes s hr.pb
  rw [hr.content] at h
  exact Computes.sim hr h

theorem sim_fail : Sims Prog.fail Prog.fail := Prog.Sim.fail fun _ _ => Refines.failed

/-- A closing bracket. -/
theorem sim_get_leave (c : Option UInt8) :
    Prog.Sim (At c) Failed (fun _ _ => Refines)
      (rdGet >>= fun _ => leave) (Trace.next >>= fun _ => Trace.leave) :=
  Sims.at (sim_get fun _ => sim_leave) c

section
variable {fuel : Nat} (hvalue : ∀ d, Sims (parseValue fuel d) (Trace.value fuel d))
include hvalue

/-- The value of a member or an element, and the white space behind it. -/
theorem sim_child (d : Nat) {k : Prog St Unit} {l : Prog Trace.St Unit} (h : Sims k l) :
    Sims
      (do
        let c ← rdPeek
        (if c = some lbrace ∨ c = some lbracket then do
          out .flush
          parseValue fuel (d + 1)
        else do
          parseValue fuel d
          out .flush)
        k)
      (do
        Trace.child (Trace.value fuel) d
        l) := by
  rw [Trace.child, Prog.bind_assoc]
  refine sim_peek fun c => Sims.at (Prog.Sim.bind ?_ fun _ _ => h) c
  refine Prog.Sim.ite (fun _ _ _ => Iff.rfl) (fun _ => ?_) (fun _ => ?_)
  · exact (sim_out .flush).bind fun _ _ => hvalue (d + 1)
  · exact (hvalue d).bind fun _ _ => sim_out .flush

end

theorem sim_close (b : UInt8) :
    Sims
      (do
        skipWs
        let c ← rdPeek
        if c ≠ some b then .fail
        else do
          let _ ← rdGet
          leave)
      (Trace.close b) := by
  refine sim_skipWs.bind fun _ _ => sim_peek fun c => ?_
  exact Prog.Sim.ite (fun _ _ _ => Iff.rfl) (fun _ => sim_fail.at c) (fun _ => sim_get_leave c)

/-- Each recursive function refines its counterpart under the same bound. -/
theorem sim_parse (fuel : Nat) :
    (∀ d, Sims (parseValue fuel d) (Trace.value fuel d)) ∧
    (∀ d, Sims (parseObject fuel d) (Trace.object fuel d)) ∧
    (∀ d, Sims (parseMembers fuel d) (Trace.members fuel d)) ∧
    (∀ d, Sims (parseArray fuel d) (Trace.array fuel d)) ∧
    (∀ d, Sims (parseElements fuel d) (Trace.elements fuel d)) := by
  induction fuel with
  | zero => exact ⟨fun _ => .diverge, fun _ => .diverge, fun _ => .diverge, fun _ => .diverge,
      fun _ => .diverge⟩
  | succ fuel ih =>
    obtain ⟨hvalue, hobject, hmembers, harray, helements⟩ := ih
    refine ⟨fun d => ?value, fun d => ?object, fun d => ?members, fun d => ?array,
      fun d => ?elements⟩
    case value =>
      rw [parseValue, Trace.value]
      refine sim_skipWs.bind fun _ _ => sim_peek fun c => ?_
      rcases c with _ | c
      · exact sim_fail.at none
      refine Prog.Sim.ite (fun _ _ _ => Iff.rfl) (fun _ => (hobject d).at _) fun _ => ?_
      refine Prog.Sim.ite (fun _ _ _ => Iff.rfl) (fun _ => (harray d).at _) fun _ => ?_
      refine Prog.Sim.ite (fun _ _ _ => Iff.rfl) (fun hq => hq ▸ sim_string) fun _ => ?_
      refine Prog.Sim.ite (fun _ _ _ => Iff.rfl) (fun _ => (sim_lit _).at _) fun _ => ?_
      refine Prog.Sim.ite (fun _ _ _ => Iff.rfl) (fun _ => (sim_lit _).at _) fun _ => ?_
      refine Prog.Sim.ite (fun _ _ _ => Iff.rfl) (fun _ => (sim_lit _).at _) fun _ => ?_
      exact Prog.Sim.ite (fun _ _ _ => Iff.rfl) (fun _ => sim_number.at _) fun _ => sim_fail.at _
    case object =>
      rw [parseObject, Trace.object]
      refine Prog.Sim.ite (fun _ _ _ => Iff.rfl) (fun _ => sim_fail) fun _ => ?_
      refine sim_enter.bind fun _ _ => sim_get fun _ => sim_skipWs.bind fun _ _ =>
        sim_peek fun c => ?_
      exact Prog.Sim.ite (fun _ _ _ => Iff.rfl) (fun _ => sim_get_leave c)
        fun _ => (hmembers d).at c
    case members =>
      rw [parseMembers, Trace.members]
      refine sim_skipWs.bind fun _ _ => sim_peek fun c => ?_
      refine Prog.Sim.ite (fun _ _ _ => Iff.rfl) (fun _ => sim_fail.at c) fun hc => ?_
      rw [Decidable.not_not.mp hc]
      refine (sim_out_at _ _).bind fun _ _ => sim_string.bind fun _ _ => sim_skipWs.bind fun _ _ =>
        sim_peek fun c => ?_
      refine Prog.Sim.ite (fun _ _ _ => Iff.rfl) (fun _ => sim_fail.at c) fun _ => Sims.at ?_ c
      refine sim_get fun _ => sim_skipWs.bind fun _ _ => (sim_out _).bind fun _ _ =>
        sim_child hvalue d (sim_skipWs.bind fun _ _ => sim_peek fun c => ?_)
      exact Prog.Sim.ite (fun _ _ _ => Iff.rfl) (fun _ => Sims.at (sim_get fun _ => hmembers d) c)
        fun _ => (sim_close rbrace).at c
    case array =>
      rw [parseArray, Trace.array]
      refine Prog.Sim.ite (fun _ _ _ => Iff.rfl) (fun _ => sim_fail) fun _ => ?_
      refine sim_enter.bind fun _ _ => sim_get fun _ => sim_skipWs.bind fun _ _ =>
        sim_peek fun c => ?_
      exact Prog.Sim.ite (fun _ _ _ => Iff.rfl) (fun _ => sim_get_leave c)
        fun _ => (helements d).at c
    case elements =>
      rw [parseElements, Trace.elements]
      refine (sim_out _).bind fun _ _ => (sim_out _).bind fun _ _ =>
        sim_child hvalue d (sim_skipWs.bind fun _ _ => sim_peek fun c => ?_)
      exact Prog.Sim.ite (fun _ _ _ => Iff.rfl) (fun _ => Sims.at (sim_get fun _ => helements d) c)
        fun _ => (sim_close rbracket).at c

end J2t.Stream
