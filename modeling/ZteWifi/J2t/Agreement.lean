import ZteWifi.J2t.StreamRefines
import ZteWifi.J2t.WholeRefines

/-!
# The two converters agree

The bound that `main` puts on the recursion is never reached, so the abstract machine has a result
on every input; both programs have that same result.
-/

open Ascii LineBuf

namespace J2t

/-! ## 1. The call bound -/

namespace Trace

/-- At most `n` bytes are unread. -/
def Within (n : Nat) (st : St) : Prop := st.rest.length ≤ n

theorem length_dropWhile_le (p : UInt8 → Bool) (s : List UInt8) :
    (s.dropWhile p).length ≤ s.length :=
  (List.dropWhile_sublist p).length_le

theorem stringBody_length {s s' : List UInt8} (h : (stringBody s).2 = some s') :
    s'.length ≤ s.length := by
  fun_induction stringBody s generalizing s' with
  | case1 | case3 | case9 => cases h
  | case2 s =>
    cases h
    exact Nat.le_succ _
  | case4 s hnone => rw [hnone] at h; cases h
  | case5 s s₂ hsome _ ih =>
    have hlt := unicodeEscape_length hsome
    have hle := ih h
    simp only [List.length_cons]
    omega
  | case6 _ _ _ _ ih | case7 _ _ _ _ _ ih | case8 _ _ _ _ _ _ ih =>
    have hle := ih h
    simp only [List.length_cons]
    omega
  | case10 c s =>
    rename_i ih
    have hle : s'.length ≤ (s.drop (utf8CharLen c - 1)).length := ih h
    rw [List.length_drop] at hle
    simp only [List.length_cons]
    omega

theorem scanLit_length {l s s' : List UInt8} (h : (scanLit l s).2 = some s') :
    s'.length ≤ s.length := by
  unfold scanLit at h
  split at h
  · cases h
    rw [List.length_drop]
    omega
  · cases h

theorem total_peek {β : Type} {P : St → Prop} {Q : β → St → Prop}
    {k : Option UInt8 → Prog St β}
    (h : ∀ c, Prog.Total (fun st => P st ∧ st.rest.head? = c) Q (k c)) :
    Prog.Total P Q (peek >>= k) :=
  fun st hst => h _ st ⟨hst, rfl⟩

theorem total_token {n : Nat} {scan : List UInt8 → Scanned}
    (h : ∀ s s', (scan s).2 = some s' → s'.length ≤ s.length) :
    Prog.Total (Within n) (fun _ => Within n) (token scan) := by
  intro st hst
  rw [token]
  rcases hs : scan st.rest with ⟨cs, _ | rest⟩
  · exact ⟨none, _, rfl, fun _ h => by cases h⟩
  · exact ⟨some (), _, rfl, fun _ _ => Nat.le_trans (h _ rest (by rw [hs])) hst⟩

section
variable {n : Nat}

theorem total_emit (cs : List Cmd) :
    Prog.Total (Within n) (fun _ => Within n) (emit cs) := .modify fun _ h => h

theorem total_skipWs : Prog.Total (Within n) (fun _ => Within n) skipWs :=
  .modify fun _ h => Nat.le_trans (length_dropWhile_le _ _) h

theorem total_enter : Prog.Total (Within n) (fun _ => Within n) enter := .modify fun _ h => h

theorem total_leave : Prog.Total (Within n) (fun _ => Within n) leave := .modify fun _ h => h

theorem total_next : Prog.Total (Within (n + 1)) (fun _ => Within n) next := by
  refine .modify fun st h => ?_
  rw [Within, List.length_tail]
  exact Nat.sub_le_of_le_add h

theorem Within.mono {m : Nat} (hmn : n ≤ m) {st : St} (h : Within n st) : Within m st :=
  Nat.le_trans h hmn

theorem total_next_within : Prog.Total (Within n) (fun _ => Within n) next :=
  total_next.conseq (fun _ h => h.mono (Nat.le_succ n)) fun _ _ h => h

theorem total_next_leave :
    Prog.Total (Within n) (fun _ => Within n) (next >>= fun _ => leave) :=
  total_next_within.bind fun _ => total_leave

/-- Knowing the next byte does no harm. -/
theorem total_at {c : Option UInt8} {m : Prog St Unit}
    (h : Prog.Total (Within n) (fun _ => Within n) m) :
    Prog.Total (fun st => Within n st ∧ st.rest.head? = c) (fun _ => Within n) m :=
  h.conseq (fun _ hst => hst.1) fun _ _ hst => hst

theorem total_close (b : UInt8) : Prog.Total (Within n) (fun _ => Within n) (close b) := by
  refine total_skipWs.bind fun _ => total_peek fun c => ?_
  exact .ite (fun _ => .fail) fun _ => total_at total_next_leave

/-- A container, given its body: the bracket read, one byte less is left. -/
theorem total_container {k : Option UInt8 → Prog St Unit}
    (h : ∀ c, Prog.Total (Within n) (fun _ => Within n) (k c)) :
    Prog.Total (Within (n + 1)) (fun _ => Within (n + 1))
      (do
        enter
        next
        skipWs
        let c ← peek
        k c) := by
  have hrun := total_enter.bind fun _ => total_next.bind fun _ => total_skipWs.bind fun _ =>
    total_peek fun c => total_at (h c)
  exact hrun.conseq (fun _ h => h) fun _ _ h => h.mono (Nat.le_succ n)

theorem total_child {value : Nat → Prog St Unit}
    (h : ∀ d, Prog.Total (Within n) (fun _ => Within n) (value d)) (d : Nat) :
    Prog.Total (Within n) (fun _ => Within n) (child value d) := by
  refine total_peek fun c => .ite (fun _ => ?_) fun _ => ?_
  · exact total_at ((total_emit _).bind fun _ => h (d + 1))
  · exact total_at ((h d).bind fun _ => total_emit _)

/-- A comma read, at least one byte less is left for the next round. -/
theorem total_next_of_comma {m : Prog St Unit} {fuel : Nat}
    (h : ∀ k, 3 * k + 3 ≤ fuel → Prog.Total (Within k) (fun _ => Within k) m)
    (hn : 3 * n + 2 ≤ fuel) :
    Prog.Total (fun st => Within n st ∧ st.rest.head? = some comma) (fun _ => Within n)
      (next >>= fun _ => m) := by
  intro st hst
  obtain ⟨k, hk⟩ : ∃ k, n = k + 1 := by
    rcases hrest : st.rest with _ | ⟨c, cs⟩
    · rw [hrest] at hst
      cases hst.2
    · have hlen := hst.1
      rw [Within, hrest, List.length_cons] at hlen
      exact ⟨n - 1, by omega⟩
  have hrun := (total_next (n := k)).bind fun _ => h k (by omega)
  obtain ⟨r, st', hrun', hq⟩ := hrun st (hk ▸ hst.1)
  exact ⟨r, st', hrun', fun a ha => (hq a ha).mono (by omega)⟩

end

/-- Each recursive function ends, given three calls for each unread byte. -/
theorem total_parse (fuel : Nat) :
    (∀ n d, 3 * n + 2 ≤ fuel →
      Prog.Total (Within n) (fun _ => Within n) (value fuel d)) ∧
    (∀ n d, 3 * n + 4 ≤ fuel →
      Prog.Total (Within (n + 1)) (fun _ => Within (n + 1)) (object fuel d)) ∧
    (∀ n d, 3 * n + 3 ≤ fuel →
      Prog.Total (Within n) (fun _ => Within n) (members fuel d)) ∧
    (∀ n d, 3 * n + 4 ≤ fuel →
      Prog.Total (Within (n + 1)) (fun _ => Within (n + 1)) (array fuel d)) ∧
    (∀ n d, 3 * n + 3 ≤ fuel →
      Prog.Total (Within n) (fun _ => Within n) (elements fuel d)) := by
  induction fuel with
  | zero => refine ⟨?_, ?_, ?_, ?_, ?_⟩ <;> intro _ _ h <;> omega
  | succ fuel ih =>
    obtain ⟨hvalue, hobject, hmembers, harray, helements⟩ := ih
    refine ⟨fun n d hn => ?value, fun n d hn => ?object, fun n d hn => ?members,
      fun n d hn => ?array, fun n d hn => ?elements⟩
    case value =>
      rw [value]
      refine total_skipWs.bind fun _ => total_peek fun c => ?_
      rcases c with _ | c
      · exact .fail
      intro st hst
      obtain ⟨k, hk⟩ : ∃ k, n = k + 1 := by
        obtain ⟨cs, hrest⟩ := List.head?_eq_some_iff.mp hst.2
        have hlen := hst.1
        rw [Within, hrest, List.length_cons] at hlen
        exact ⟨n - 1, by omega⟩
      subst hk
      revert st
      change Prog.Total _ (fun _ => Within (k + 1)) _
      refine .ite (fun _ => total_at (hobject k d (by omega))) fun _ => ?_
      refine .ite (fun _ => total_at (harray k d (by omega))) fun _ => ?_
      refine .ite (fun _ => total_at (total_token fun s s' h => ?_)) fun _ => ?_
      · exact Nat.le_trans (stringBody_length h) (by rw [List.length_tail]; omega)
      refine .ite (fun _ => total_at (total_token fun _ _ => scanLit_length)) fun _ => ?_
      refine .ite (fun _ => total_at (total_token fun _ _ => scanLit_length)) fun _ => ?_
      refine .ite (fun _ => total_at (total_token fun _ _ => scanLit_length)) fun _ => ?_
      refine .ite (fun _ => total_at (total_token fun s s' h => ?_)) fun _ => .fail
      cases h
      exact length_dropWhile_le _ _
    case object =>
      rw [object]
      refine .ite (fun _ => .fail) fun _ => total_container fun c => ?_
      exact .ite (fun _ => total_next_leave) fun _ => hmembers n d (by omega)
    case members =>
      rw [members]
      refine total_skipWs.bind fun _ => total_peek fun c => .ite (fun _ => .fail) fun _ =>
        total_at ?_
      refine (total_emit _).bind fun _ => (total_token fun s s' h => ?_).bind fun _ =>
        total_skipWs.bind fun _ => total_peek fun c => .ite (fun _ => .fail) fun _ => total_at ?_
      · exact Nat.le_trans (stringBody_length h) (by rw [List.length_tail]; omega)
      refine total_next_within.bind fun _ => total_skipWs.bind fun _ => (total_emit _).bind fun _ =>
        (total_child (fun d => hvalue n d (by omega)) d).bind fun _ =>
        total_skipWs.bind fun _ => total_peek fun c => .ite (fun hc => hc ▸ ?_) fun _ =>
        total_at (total_close _)
      exact total_next_of_comma (fun k hk => hmembers k d hk) (by omega)
    case array =>
      rw [array]
      refine .ite (fun _ => .fail) fun _ => total_container fun c => ?_
      exact .ite (fun _ => total_next_leave) fun _ => helements n d (by omega)
    case elements =>
      rw [elements]
      refine (total_emit _).bind fun _ => (total_emit _).bind fun _ =>
        (total_child (fun d => hvalue n d (by omega)) d).bind fun _ =>
        total_skipWs.bind fun _ => total_peek fun c => .ite (fun hc => hc ▸ ?_) fun _ =>
        total_at (total_close _)
      exact total_next_of_comma (fun k hk => helements k d hk) (by omega)

/-- The whole run has a result. -/
theorem exists_run (input : List UInt8) : ∃ r st, run input = some (r, st) := by
  have hvalue := (total_parse (Stream.callBound input)).1 input.length 0 (Nat.le_refl _)
  have htext : Prog.Total (Within input.length) (fun _ _ => True)
      (text (Stream.callBound input)) := by
    refine total_skipWs.bind fun _ => total_peek fun c => .ite (fun _ => .fail) fun _ => ?_
    refine Prog.Total.bind (total_at hvalue) fun _ => total_skipWs.bind fun _ => total_peek fun c =>
      .ite (fun _ => .fail) fun _ => .modify fun _ _ => trivial
  obtain ⟨r, st, hrun, -⟩ := htext (.start input) (Nat.le_refl _)
  exact ⟨r, st, hrun⟩

/-- A larger bound changes no run that has ended. -/
theorem le_parse (fuel : Nat) :
    (∀ d, Prog.Le (value fuel d) (value (fuel + 1) d)) ∧
    (∀ d, Prog.Le (object fuel d) (object (fuel + 1) d)) ∧
    (∀ d, Prog.Le (members fuel d) (members (fuel + 1) d)) ∧
    (∀ d, Prog.Le (array fuel d) (array (fuel + 1) d)) ∧
    (∀ d, Prog.Le (elements fuel d) (elements (fuel + 1) d)) := by
  induction fuel with
  | zero => exact ⟨fun _ => .diverge, fun _ => .diverge, fun _ => .diverge, fun _ => .diverge,
      fun _ => .diverge⟩
  | succ fuel ih =>
    obtain ⟨hvalue, hobject, hmembers, harray, helements⟩ := ih
    have hchild : ∀ d, Prog.Le (child (value fuel) d) (child (value (fuel + 1)) d) := fun d =>
      Prog.Le.bind (.refl _) fun _ => .ite (Prog.Le.bind (.refl _) fun _ => hvalue (d + 1))
        (Prog.Le.bind (hvalue d) fun _ => .refl _)
    refine ⟨fun d => ?value, fun d => ?object, fun d => ?members, fun d => ?array,
      fun d => ?elements⟩
    case value =>
      rw [value, value]
      refine Prog.Le.bind (.refl _) fun _ => Prog.Le.bind (.refl _) fun c => ?_
      cases c with
      | none => exact .refl _
      | some c => exact .ite (hobject d) (.ite (harray d) (.refl _))
    case object =>
      rw [object, object]
      refine .ite (.refl _) (Prog.Le.bind (.refl _) fun _ => Prog.Le.bind (.refl _) fun _ =>
        Prog.Le.bind (.refl _) fun _ => Prog.Le.bind (.refl _) fun _ => ?_)
      exact .ite (.refl _) (hmembers d)
    case members =>
      rw [members, members]
      refine Prog.Le.bind (.refl _) fun _ => Prog.Le.bind (.refl _) fun _ => .ite (.refl _) ?_
      refine Prog.Le.bind (.refl _) fun _ => Prog.Le.bind (.refl _) fun _ =>
        Prog.Le.bind (.refl _) fun _ => Prog.Le.bind (.refl _) fun _ => .ite (.refl _) ?_
      refine Prog.Le.bind (.refl _) fun _ => Prog.Le.bind (.refl _) fun _ =>
        Prog.Le.bind (.refl _) fun _ => Prog.Le.bind (hchild d) fun _ =>
        Prog.Le.bind (.refl _) fun _ => Prog.Le.bind (.refl _) fun _ => ?_
      exact .ite (Prog.Le.bind (.refl _) fun _ => hmembers d) (.refl _)
    case array =>
      rw [array, array]
      refine .ite (.refl _) (Prog.Le.bind (.refl _) fun _ => Prog.Le.bind (.refl _) fun _ =>
        Prog.Le.bind (.refl _) fun _ => Prog.Le.bind (.refl _) fun _ => ?_)
      exact .ite (.refl _) (helements d)
    case elements =>
      rw [elements, elements]
      refine Prog.Le.bind (.refl _) fun _ => Prog.Le.bind (.refl _) fun _ =>
        Prog.Le.bind (hchild d) fun _ => Prog.Le.bind (.refl _) fun _ =>
        Prog.Le.bind (.refl _) fun _ => ?_
      exact .ite (Prog.Le.bind (.refl _) fun _ => helements d) (.refl _)

theorem text_mono {fuel fuel' : Nat} (h : fuel ≤ fuel') : Prog.Le (text fuel) (text fuel') := by
  induction h with
  | refl => exact .refl _
  | step _ ih =>
    intro s r hrun
    refine (Prog.Le.bind (.refl _) fun _ => Prog.Le.bind (.refl _) fun _ => .ite (.refl _)
      (Prog.Le.bind ((le_parse _).1 0) fun _ => .refl _)) s r (ih s r hrun)

end Trace

/-! ## 2. The streaming version -/

namespace Stream

theorem refines_start (input : List UInt8) : Refines (.start input) (.start input) :=
  ⟨rfl, Nat.zero_le _, rfl, rfl, rfl⟩

theorem skipWs_run {s : St} {t : Trace.St} (h : Refines s t) :
    ∃ s', skipWs s = some (some (), s') ∧
      Refines s' { t with rest := t.rest.dropWhile isspace } := by
  have hrel := sim_skipWs s t h
  rw [Trace.skipWs, Prog.modify_apply] at hrel
  generalize hrun : skipWs s = r at hrel
  cases hrel with
  | value hq => exact ⟨_, rfl, hq⟩

theorem rdPeek_of_refines {s : St} {t : Trace.St} (h : Refines s t) :
    s.rd.rdPeek.1 = t.rest.head? ∧ Refines { s with rd := s.rd.rdPeek.2 } t := by
  have hpb := h.pb
  have hpeek := Reader.rdPeek_pb_length s.rd
  have hcontent := Reader.rdPeek_content (r := s.rd) (by simp only [rdPb]; omega)
  refine ⟨by rw [Reader.rdPeek_fst, h.content], hcontent.trans h.content, ?_, h.out, h.active,
    h.peak⟩
  simp only
  omega

/-- The run of the streaming version is that of the abstract machine. -/
theorem run_eq_trace (input : List UInt8) :
    (run input).map (fun e => (e.1.outcome, e.2)) =
      (Trace.run input).map fun e => (Trace.outcome e.1 e.2.cmds, e.2.peak) := by
  obtain ⟨s₁, hskip, hr₁⟩ := skipWs_run (refines_start input)
  obtain ⟨hpeek₁, hr₁'⟩ := rdPeek_of_refines hr₁
  simp only [run, hskip, Option.bind_eq_bind, Option.bind_some]
  rw [Trace.run, Trace.text, Trace.skipWs, Prog.modify_bind_apply, Trace.peek,
    Prog.modifyGet_bind_apply, hpeek₁]
  generalize ht₁ : ({ Trace.St.start input with rest := _ } : Trace.St) = t₁ at hr₁ hr₁' ⊢
  by_cases hend : t₁.rest.head? = none
  · simp only [hend, if_true, Prog.fail_apply, Option.map_some, Exit.outcome, Trace.outcome,
      hr₁.out, hr₁.peak, Option.isSome_none, Bool.false_eq_true, if_false]
    rfl
  simp only [if_neg hend]
  have hvalue := (sim_parse (callBound input)).1 0 _ t₁ hr₁'
  rw [Prog.bind_apply]
  generalize parseValue (callBound input) 0 _ = x at hvalue ⊢
  generalize Trace.value (callBound input) 0 t₁ = y at hvalue ⊢
  cases hvalue with
  | bound => rfl
  | error he =>
    simp only [Option.bind_some, Option.map_some, Exit.outcome, Trace.outcome, he.out, he.peak,
      Option.isSome_none, Bool.false_eq_true, if_false]
    rfl
  | value hq =>
    obtain ⟨s₂, hskip₂, hr₂⟩ := skipWs_run hq
    obtain ⟨hpeek₂, -⟩ := rdPeek_of_refines hr₂
    simp only [Option.bind_some, hskip₂, hpeek₂, Prog.modify_bind_apply,
      Prog.modifyGet_bind_apply]
    split
    · simp only [Prog.fail_apply, Option.map_some, Exit.outcome, Trace.outcome, hr₂.out, hr₂.peak,
        Option.isSome_none, Bool.false_eq_true, if_false]
      rfl
    · simp only [Trace.emit, Prog.modify_apply, Option.map_some, Exit.outcome, Trace.outcome,
        hr₂.out, hr₂.peak, execAll_append, Option.isSome_some, if_true]
      rfl

theorem main_outcome {input : List UInt8} {r : Option Unit} {st : Trace.St}
    (h : Trace.run input = some (r, st)) :
    ∃ e, main input = some e ∧ e.outcome = Trace.outcome r st.cmds ∧
      peakCalls input = some st.peak := by
  have hrun := run_eq_trace input
  rw [h, Option.map_some] at hrun
  obtain ⟨⟨e, n⟩, he, heq⟩ := Option.map_eq_some_iff.mp hrun
  refine ⟨e, by rw [main, he]; rfl, congrArg Prod.fst heq, ?_⟩
  have hn : n = st.peak := congrArg Prod.snd heq
  rw [peakCalls, he, ← hn]
  rfl

end Stream

/-! ## 3. The whole-buffer version -/

namespace Whole

variable {buf : List UInt8}

theorem refines_start (buf : List UInt8) : Refines buf ⟨0, LineBuf.empty⟩ (.start buf) :=
  ⟨rfl, rfl⟩

theorem skipWs_refines {s : St} {t : Trace.St} (h : Refines buf s t) :
    Refines buf { s with p := skipWsFrom buf buf.length s.p }
      { t with rest := t.rest.dropWhile isspace } :=
  ⟨by rw [drop_skipWsFrom _ _ (by omega), h.content], h.out⟩

theorem Refines.at_end {s : St} {t : Trace.St} (h : Refines buf s t) :
    s.p ≥ buf.length ↔ t.rest.head? = none := by
  rw [← h.content, List.head?_drop, List.getElem?_eq_none_iff]

/-- The run of the whole-buffer version is that of the abstract machine. -/
theorem main_eq_trace (input : List UInt8) :
    (main input).map Exit.outcome =
      (Trace.run input).map fun e => Trace.outcome e.1 e.2.cmds := by
  have hr₁ := skipWs_refines (refines_start input)
  simp only [main, Text.readAll_eq, Option.bind_eq_bind, Option.bind_some, mainOn, skipWs,
    Prog.modify_apply]
  rw [Trace.run, Trace.text, Trace.skipWs, Prog.modify_bind_apply, Trace.peek,
    Prog.modifyGet_bind_apply]
  generalize ht₁ : ({ Trace.St.start input with rest := _ } : Trace.St) = t₁ at hr₁ ⊢
  have hend₁ : skipWsFrom input input.length 0 ≥ input.length ↔ t₁.rest.head? = none := hr₁.at_end
  have hout₁ : LineBuf.empty = execAll t₁.cmds .empty := hr₁.out
  by_cases hend : t₁.rest.head? = none
  · simp only [if_pos hend, if_pos (hend₁.mpr hend), Prog.fail_apply, Option.map_some,
      Trace.outcome, ← hout₁, Option.isSome_none, Bool.false_eq_true, if_false]
    rfl
  simp only [if_neg hend, if_neg (fun h => hend (hend₁.mp h))]
  have hvalue := (sim_parse (Stream.callBound input)).1 0 _ t₁ hr₁
  rw [Prog.bind_apply]
  generalize parseValue input (Stream.callBound input) 0 _ = x at hvalue ⊢
  generalize Trace.value (Stream.callBound input) 0 t₁ = y at hvalue ⊢
  cases hvalue with
  | bound => rfl
  | error he =>
    simp only [Failed] at he
    simp only [Option.bind_some, Option.map_some, Trace.outcome, he, Option.isSome_none,
      Bool.false_eq_true, if_false]
    rfl
  | @value _ _ s t hq =>
    have hend₂ : skipWsFrom input input.length s.p ≥ input.length ↔
        (t.rest.dropWhile isspace).head? = none := (skipWs_refines hq).at_end
    simp only [Option.bind_some, Prog.modify_bind_apply, Prog.modifyGet_bind_apply]
    by_cases hend : (t.rest.dropWhile isspace).head? = none
    · have hge := hend₂.mpr hend
      simp only [hend, ne_eq, not_true_eq_false, if_false, if_neg (Nat.not_lt.mpr hge)]
      simp only [Trace.emit, Prog.modify_apply, Option.map_some, Trace.outcome, hq.out,
        execAll_append, Option.isSome_some, if_true]
      rfl
    · have hlt := Nat.lt_of_not_ge fun h => hend (hend₂.mp h)
      simp only [hend, ne_eq, not_false_eq_true, if_true, if_pos hlt]
      simp only [Prog.fail_apply, Option.map_some, Trace.outcome, hq.out, Option.isSome_none,
        Bool.false_eq_true, if_false]
      rfl

end Whole

theorem Trace.outcome_status (r : Option Unit) (cmds : List Cmd) :
    (Trace.outcome r cmds).status = 0 ∨ (Trace.outcome r cmds).status = 1 := by
  cases r with
  | none => exact .inr rfl
  | some _ => exact .inl rfl

/-- On every input both converters end, with the same bytes on stdout, the same exit status and
the same flag `truncated`. -/
theorem stream_whole_agree (input : List UInt8) :
    ∃ e e', Stream.main input = some e ∧ Whole.main input = some e' ∧ e.stdout = e'.stdout ∧
      e.status = e'.status ∧ (e.status = 0 ∨ e.status = 1) ∧ e.truncated = e'.truncated := by
  obtain ⟨r, st, hrun⟩ := Trace.exists_run input
  have hstream := Stream.run_eq_trace input
  have hwhole := Whole.main_eq_trace input
  rw [hrun, Option.map_some] at hstream hwhole
  obtain ⟨⟨e, n⟩, he, heq⟩ := Option.map_eq_some_iff.mp hstream
  obtain ⟨e', he', heq'⟩ := Option.map_eq_some_iff.mp hwhole
  have hout : e.outcome = Trace.outcome r st.cmds := congrArg Prod.fst heq
  have hstatus : e.status = 0 ∨ e.status = 1 := by
    have h := Trace.outcome_status r st.cmds
    rwa [← hout] at h
  have hsame : e.outcome = e'.outcome := hout.trans heq'.symm
  simp only [Exit.outcome, Outcome.mk.injEq] at hsame
  exact ⟨e, e', by rw [Stream.main, he]; rfl, he', hsame.2.1, hsame.1, hstatus, hsame.2.2⟩

end J2t
