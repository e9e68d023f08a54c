import ZteWifi.J2t.Soundness
import ZteWifi.Text.Lines

/-!
# What the converter hands to the line buffer

The calls of a run come in a few kinds of pieces, whatever the input is.  An invariant that all of
them keep holds of every run.
-/

open Ascii LineBuf

namespace J2t.Trace

/-! ## 1. Pieces -/

/-- The calls that are made where `s` is unread. -/
inductive Emitted (s : List UInt8) : List Cmd → Prop
  | indent (depth : Nat) : Emitted s [.indent depth]
  | colon : Emitted s [.str (bytes ": ")]
  | dash : Emitted s [.str (bytes "- ")]
  | flush : Emitted s [.flush]
  | string : Emitted s (stringBody s.tail).1
  | literal {l : List UInt8} (hl : l ∈ [bytes "true", bytes "false", bytes "null"]) :
      Emitted s [.str l]
  | number {t : List UInt8} (ht : t.all isNumChar) : Emitted s (t.map .byte)

/-- An invariant that reading on keeps. -/
structure Tracks (I : St → Prop) : Prop where
  read : ∀ st rest, rest <:+ st.rest → I st → I { st with rest := rest }
  count : ∀ st active peak, st.peak ≤ peak → I st → I { st with active := active, peak := peak }
  emit : ∀ st cs, Emitted st.rest cs → I st → I { st with cmds := st.cmds ++ cs }

theorem preserves_peek {I : St → Prop} : Prog.Preserves I peek := .modifyGet fun _ h => h

theorem stringBody_suffix {s s' : List UInt8} (h : (stringBody s).2 = some s') : s' <:+ s := by
  obtain ⟨is, rfl⟩ := stringBody_items h
  exact (List.suffix_cons _ s').trans (List.suffix_append _ _)

section
variable {I : St → Prop} (hI : Tracks I)
include hI

theorem Tracks.next : Prog.Preserves I next :=
  .modify fun st => hI.read st _ (List.tail_suffix st.rest)

theorem Tracks.skipWs : Prog.Preserves I skipWs :=
  .modify fun st => hI.read st _ (List.dropWhile_suffix _)

theorem Tracks.enter : Prog.Preserves I enter :=
  .modify fun st => hI.count st _ _ (Nat.le_max_left _ _)

theorem Tracks.leave : Prog.Preserves I leave :=
  .modify fun st => hI.count st _ _ (Nat.le_refl _)

theorem Tracks.emits {cs : List Cmd} (hcs : ∀ s, Emitted s cs) :
    Prog.Preserves I (Trace.emit cs) :=
  .modify fun st => hI.emit st cs (hcs st.rest)

theorem Tracks.token {scan : List UInt8 → Scanned}
    (hscan : ∀ s, (scan s).1 = [] ∨ Emitted s (scan s).1)
    (hrest : ∀ s s', (scan s).2 = some s' → s' <:+ s) : Prog.Preserves I (token scan) := by
  have hcmds : ∀ st, I st → I { st with cmds := st.cmds ++ (scan st.rest).1 } := by
    intro st hst
    rcases hscan st.rest with hnil | hcs
    · rwa [hnil, List.append_nil]
    · exact hI.emit st _ hcs hst
  intro st r st' hrun hst
  have hkeep := hcmds st hst
  have hsuffix := hrest st.rest
  unfold Trace.token at hrun
  rcases hscanned : scan st.rest with ⟨cs, _ | rest⟩
  · rw [hscanned] at hrun hkeep
    cases hrun
    exact hkeep
  · rw [hscanned] at hrun hkeep hsuffix
    cases hrun
    exact hI.read { st with cmds := st.cmds ++ cs } rest (hsuffix rest rfl) hkeep

theorem Tracks.string : Prog.Preserves I string := by
  apply hI.token
  · exact fun s => .inr .string
  · exact fun s s' h => (stringBody_suffix h).trans (List.tail_suffix s)

theorem Tracks.literal {l : List UInt8} (hl : l ∈ [bytes "true", bytes "false", bytes "null"]) :
    Prog.Preserves I (lit l) := by
  apply hI.token
  · intro s
    unfold scanLit
    split
    · exact .inr (.literal hl)
    · exact .inl rfl
  · intro s s' h
    have hs := scanLit_prefix h
    rw [hs]
    exact List.suffix_append l s'

theorem Tracks.number : Prog.Preserves I number := by
  apply hI.token
  · exact fun _ => .inr (.number List.all_takeWhile)
  · rintro s _ ⟨⟩
    exact List.dropWhile_suffix _

theorem Tracks.close (b : UInt8) : Prog.Preserves I (close b) :=
  hI.skipWs.bind fun _ => preserves_peek.bind fun _ => .ite .fail (hI.next.bind fun _ => hI.leave)

theorem Tracks.child {value : Nat → Prog St Unit} (h : ∀ d, Prog.Preserves I (value d)) (d : Nat) :
    Prog.Preserves I (child value d) :=
  preserves_peek.bind fun _ => .ite ((hI.emits fun _ => .flush).bind fun _ => h _)
    ((h _).bind fun _ => hI.emits fun _ => .flush)

/-- The parser keeps such an invariant. -/
theorem Tracks.parse (fuel : Nat) : ∀ d, Prog.Preserves I (value fuel d) ∧
    Prog.Preserves I (object fuel d) ∧ Prog.Preserves I (members fuel d) ∧
    Prog.Preserves I (array fuel d) ∧ Prog.Preserves I (elements fuel d) := by
  induction fuel with
  | zero => exact fun d => ⟨.diverge, .diverge, .diverge, .diverge, .diverge⟩
  | succ fuel ih =>
    intro d
    obtain ⟨-, hobject, hmembers, harray, helements⟩ := ih d
    have hchild := hI.child (fun d => (ih d).1) d
    have hcontainer : ∀ {k : Option UInt8 → Prog St Unit}, (∀ c, Prog.Preserves I (k c)) →
        Prog.Preserves I (do Trace.enter; Trace.next; Trace.skipWs; let c ← Trace.peek; k c) :=
      fun h => hI.enter.bind fun _ => hI.next.bind fun _ => hI.skipWs.bind fun _ => preserves_peek.bind h
    refine ⟨?value, ?object, ?members, ?array, ?elements⟩
    case value =>
      rw [value]
      refine hI.skipWs.bind fun _ => preserves_peek.bind fun c => ?_
      rcases c with _ | c
      · exact .fail
      have hlit {l : List UInt8} (hl : l ∈ [bytes "true", bytes "false", bytes "null"]) :=
        hI.literal hl
      exact .ite hobject (.ite harray (.ite hI.string (.ite (hlit (by simp)) (.ite (hlit (by simp))
        (.ite (hlit (by simp)) (.ite hI.number .fail))))))
    case object =>
      rw [object]
      exact .ite .fail (hcontainer fun c => .ite (hI.next.bind fun _ => hI.leave) hmembers)
    case members =>
      rw [members]
      refine hI.skipWs.bind fun _ => preserves_peek.bind fun _ => .ite .fail ?_
      refine (hI.emits fun _ => .indent d).bind fun _ => hI.string.bind fun _ =>
        hI.skipWs.bind fun _ => preserves_peek.bind fun _ => .ite .fail ?_
      exact hI.next.bind fun _ => hI.skipWs.bind fun _ => (hI.emits fun _ => .colon).bind fun _ =>
        hchild.bind fun _ => hI.skipWs.bind fun _ => preserves_peek.bind fun _ =>
        .ite (hI.next.bind fun _ => hmembers) (hI.close _)
    case array =>
      rw [array]
      exact .ite .fail (hcontainer fun c => .ite (hI.next.bind fun _ => hI.leave) helements)
    case elements =>
      rw [elements]
      exact (hI.emits fun _ => .indent d).bind fun _ => (hI.emits fun _ => .dash).bind fun _ =>
        hchild.bind fun _ => hI.skipWs.bind fun _ => preserves_peek.bind fun _ =>
        .ite (hI.next.bind fun _ => helements) (hI.close _)

theorem Tracks.text (fuel : Nat) : Prog.Preserves I (text fuel) :=
  hI.skipWs.bind fun _ => preserves_peek.bind fun _ => .ite .fail
    ((hI.parse fuel 0).1.bind fun _ => hI.skipWs.bind fun _ => preserves_peek.bind fun _ =>
      .ite .fail (hI.emits fun _ => .flush))

end

/-! ## 2. The calls of a run -/

/-- The calls of the line-buffer routines that a run of `main` makes, in their order. -/
def calls (input : List UInt8) : List Cmd := ((run input).map fun x => x.2.cmds).getD []

/-- What the run leaves in the buffer is what its calls leave there. -/
theorem main_calls (input : List UInt8) : ∃ e, Stream.main input = some e ∧
    e.stdout = (execAll (calls input) .empty).stdout ∧
      e.truncated = (execAll (calls input) .empty).truncated := by
  obtain ⟨r, st, hrun⟩ := exists_run input
  obtain ⟨e, he, hout, -⟩ := Stream.main_outcome hrun
  have hcalls : calls input = st.cmds := by
    rw [calls, hrun]
    rfl
  rw [hcalls]
  exact ⟨e, he, congrArg Outcome.stdout hout, congrArg Outcome.truncated hout⟩

/-- The lines that are written. -/
def lines (input : List UInt8) : List Line := linesAll (calls input) .empty

theorem main_stdout (input : List UInt8) :
    ∃ e, Stream.main input = some e ∧ e.stdout = printed (lines input) := by
  obtain ⟨e, he, hout, -⟩ := main_calls input
  exact ⟨e, he, hout.trans (execAll_stdout _ _)⟩

/-- Every call stands in a piece, which is made where some rest of the input is unread. -/
theorem calls_emitted (input : List UInt8) : ∃ ps : List (List Cmd),
    calls input = ps.flatten ∧ ∀ p ∈ ps, ∃ s, s <:+ input ∧ Emitted s p := by
  have hI : Tracks fun st => st.rest <:+ input ∧ ∃ ps : List (List Cmd), st.cmds = ps.flatten ∧
      ∀ p ∈ ps, ∃ s, s <:+ input ∧ Emitted s p := by
    refine ⟨fun _ _ hrest h => ⟨hrest.trans h.1, h.2⟩, fun _ _ _ _ h => h, fun st cs hcs h => ?_⟩
    obtain ⟨hrest, ps, hps, hall⟩ := h
    refine ⟨hrest, ps ++ [cs], ?_, ?_⟩
    · rw [List.flatten_concat, ← hps]
    · rw [List.forall_mem_append, List.forall_mem_singleton]
      exact ⟨hall, st.rest, hrest, hcs⟩
  obtain ⟨r, st, hrun⟩ := exists_run input
  obtain ⟨-, ps, hps, hall⟩ := hI.text _ _ r st hrun
    ⟨List.suffix_refl _, [], rfl, List.forall_mem_nil _⟩
  refine ⟨ps, ?_, hall⟩
  rw [calls, hrun]
  exact hps

end J2t.Trace
