import ZteWifi.J2t.Agreement
import ZteWifi.J2t.Completeness

/-!
# White space between tokens

Two inputs that spell the same tokens are read by two runs in step.  The only look ahead that is not
preceded by a skip over white space is the one behind a comma of an array, so the runs stay in step
where the inputs agree there: before a bracket either both have white space or neither has.
`Ctl` follows the open containers through the tokens and tells where that is.
-/

open Ascii LineBuf

namespace J2t

/-! ## 1. Tokens -/

def isPunct (c : UInt8) : Bool :=
  c = lbrace || c = rbrace || c = lbracket || c = rbracket || c = colon || c = comma

inductive Tok
  | punct (c : UInt8) (h : isPunct c = true)
  | string (s : Str)
  | literal (l : Literal)
  | number (n : Number)

namespace Tok

def bytes : Tok → List UInt8
  | punct c _ => [c]
  | string s => s.bytes
  | literal l => l.bytes
  | number n => n.bytes

/-- The token does not go on into what stands behind it. -/
def Ends : Tok → List UInt8 → Prop
  | punct _ _, _ | string _, _ => True
  | literal _, s => ∀ c ∈ s.head?, isalnum c = false
  | number _, s => ∀ c ∈ s.head?, isNumChar c = false

/-- The token opens a container. -/
def Opens (t : Tok) : Prop := t.bytes = [lbrace] ∨ t.bytes = [lbracket]

instance : (t : Tok) → (s : List UInt8) → Decidable (t.Ends s)
  | punct _ _, _ | string _, _ => .isTrue trivial
  | literal _, s => inferInstanceAs (Decidable (∀ c ∈ s.head?, isalnum c = false))
  | number _, s => inferInstanceAs (Decidable (∀ c ∈ s.head?, isNumChar c = false))

instance (t : Tok) : Decidable t.Opens := inferInstanceAs (Decidable (_ ∨ _))

end Tok

/-- Two spellings of the same tokens: before each the white space it has on either side. -/
inductive Spelled : List (Tok × Ws × Ws) → List UInt8 → List UInt8 → Prop
  | nil (w w' : Ws) : Spelled [] w.bytes w'.bytes
  | cons (tok : Tok) (w w' : Ws) {ts : List (Tok × Ws × Ws)} {s s' : List UInt8}
      (hs : tok.Ends s) (hs' : tok.Ends s') (h : Spelled ts s s') :
      Spelled ((tok, w, w') :: ts) (w.bytes ++ (tok.bytes ++ s)) (w'.bytes ++ (tok.bytes ++ s'))

/-! ## 2. Following the containers -/

/-- What may come next: a value (of a member, or of an array behind a comma), whatever may follow
an opening bracket, a key, a colon, or whatever may follow a value. -/
inductive Mode
  | text | member | next | opened | key | colon | after
  deriving DecidableEq

/-- The open containers, innermost first: whether it is an array, and its depth. -/
structure Ctl where
  stack : List (Bool × Nat)
  mode : Mode

namespace Ctl

/-- A value, where a container would be read at the given depth. -/
def stepValue (stack : List (Bool × Nat)) (depth : Nat) : Tok → Option Ctl
  | .punct c _ =>
    if depth > maxDepth then none
    else if c = lbrace then some ⟨(false, depth) :: stack, .opened⟩
    else if c = lbracket then some ⟨(true, depth) :: stack, .opened⟩
    else none
  | _ => some ⟨stack, .after⟩

def stepKey (stack : List (Bool × Nat)) : Tok → Option Ctl
  | .string _ => some ⟨stack, .colon⟩
  | _ => none

/-- The state behind the next token, before which there is white space or not; `none` when the
token is refused. -/
def step (gap : Bool) (tok : Tok) : Ctl → Option Ctl
  | ⟨stack, .text⟩ => stepValue stack 0 tok
  | ⟨(b, d) :: stack, .member⟩ => stepValue ((b, d) :: stack) (d + 1) tok
  | ⟨(b, d) :: stack, .next⟩ => stepValue ((b, d) :: stack) (if gap then d else d + 1) tok
  | ⟨(false, d) :: stack, .opened⟩ =>
    if tok.bytes = [rbrace] then some ⟨stack, .after⟩ else stepKey ((false, d) :: stack) tok
  | ⟨(true, d) :: stack, .opened⟩ =>
    if tok.bytes = [rbracket] then some ⟨stack, .after⟩
    else stepValue ((true, d) :: stack) (d + 1) tok
  | ⟨stack, .key⟩ => stepKey stack tok
  | ⟨stack, .colon⟩ => if tok.bytes = [colon] then some ⟨stack, .member⟩ else none
  | ⟨(false, d) :: stack, .after⟩ =>
    if tok.bytes = [comma] then some ⟨(false, d) :: stack, .key⟩
    else if tok.bytes = [rbrace] then some ⟨stack, .after⟩
    else none
  | ⟨(true, d) :: stack, .after⟩ =>
    if tok.bytes = [comma] then some ⟨(true, d) :: stack, .next⟩
    else if tok.bytes = [rbracket] then some ⟨stack, .after⟩
    else none
  | _ => none

end Ctl

/-- Up to the first token that is refused: before a bracket that stands behind a comma of an array,
both spellings have white space or neither has. -/
def Agree : Ctl → List (Tok × Ws × Ws) → Prop
  | _, [] => True
  | ctl, (tok, w, w') :: ts =>
    (ctl.mode = .next → tok.Opens → (w.bytes = [] ↔ w'.bytes = [])) ∧
      ∀ ctl' ∈ ctl.step (!w.bytes.isEmpty) tok, Agree ctl' ts

instance Agree.decidable : (ctl : Ctl) → (ts : List (Tok × Ws × Ws)) → Decidable (Agree ctl ts)
  | _, [] => .isTrue trivial
  | ctl, (tok, w, w') :: ts =>
    have := fun ctl => Agree.decidable ctl ts
    inferInstanceAs (Decidable ((ctl.mode = .next → tok.Opens → (w.bytes = [] ↔ w'.bytes = [])) ∧
      ∀ ctl' ∈ ctl.step (!w.bytes.isEmpty) tok, Agree ctl' ts))

/-! ## 3. Two runs in step -/

/-- What the next token leads to, whatever white space there is before it. -/
def Follows (f : Tok → Option Ctl) : List (Tok × Ws × Ws) → Prop
  | [] => True
  | (tok, _, _) :: ts => ∀ ctl, f tok = some ctl → Agree ctl ts

theorem Agree.follows {ctl : Ctl} {ts : List (Tok × Ws × Ws)} {f : Tok → Option Ctl}
    (h : Agree ctl ts) (hf : ∀ gap tok, ctl.step gap tok = f tok) : Follows f ts := by
  cases ts with
  | nil => trivial
  | cons t ts => exact fun ctl' hctl => h.2 ctl' ((hf _ _).trans hctl)

namespace Trace

/-- Both inputs spell the same tokens, which may come in the state `ctl`. -/
def After (ctl : Ctl) (s t : St) : Prop :=
  s.cmds = t.cmds ∧ ∃ ts, Spelled ts s.rest t.rest ∧ Agree ctl ts

/-- Both inputs spell the same tokens, and `f` tells what the first leads to. -/
def Before (f : Tok → Option Ctl) (s t : St) : Prop :=
  s.cmds = t.cmds ∧ ∃ ts, Spelled ts s.rest t.rest ∧ Follows f ts

/-- The same with no white space left before the first token, whose first byte is `c`. -/
inductive Ready (f : Tok → Option Ctl) : Option UInt8 → St → St → Prop
  | done {s t : St} (hcmds : s.cmds = t.cmds) (hs : s.rest = []) (ht : t.rest = []) :
      Ready f none s t
  | token (tok : Tok) {c : UInt8} {r : List UInt8} (htok : tok.bytes = c :: r)
      {s t : St} (hcmds : s.cmds = t.cmds) {ts : List (Tok × Ws × Ws)} {k k' : List UInt8}
      (hs : s.rest = tok.bytes ++ k) (ht : t.rest = tok.bytes ++ k')
      (hk : tok.Ends k) (hk' : tok.Ends k') (hts : Spelled ts k k')
      (hf : ∀ ctl, f tok = some ctl → Agree ctl ts) : Ready f (some c) s t

/-- Two runs that have failed with the same output. -/
def SameCmds (s t : St) : Prop := s.cmds = t.cmds

end Trace

theorem isPunct_cases : ∀ c : UInt8, isPunct c = true → isspace c = false ∧ c ≠ quote ∧
    c ≠ 0x74 ∧ c ≠ 0x66 ∧ c ≠ 0x6E ∧ ¬ (isdigit c = true ∨ c = minus) := by
  decide +kernel

theorem Tok.exists_bytes_eq_cons (tok : Tok) : ∃ c r, tok.bytes = c :: r ∧ isspace c = false := by
  cases tok with
  | punct c h => exact ⟨c, [], rfl, (isPunct_cases c h).1⟩
  | string s => exact ⟨_, _, rfl, by decide⟩
  | literal l => cases l <;> exact ⟨_, _, rfl, by decide⟩
  | number n => exact ⟨_, _, rfl, (Cst.start_of_number n.first n.start).1⟩

namespace Trace

section
variable {f : Tok → Option Ctl} {c : Option UInt8} {s t : St}

theorem Ready.cmds (h : Ready f c s t) : SameCmds s t := by
  cases h with
  | done h | token _ _ h => exact h

theorem Ready.head (h : Ready f c s t) : s.rest.head? = c ∧ t.rest.head? = c := by
  cases h with
  | done _ hs ht => rw [hs, ht]; exact ⟨rfl, rfl⟩
  | token tok htok _ hs ht => rw [hs, ht, htok]; exact ⟨rfl, rfl⟩

theorem Ready.before (h : Ready f c s t) : Before f s t := by
  cases h with
  | done h hs ht => exact ⟨h, [], by rw [hs, ht]; exact .nil Ws.none Ws.none, trivial⟩
  | token tok htok h hs ht hk hk' hts hf =>
    exact ⟨h, (tok, .none, .none) :: _, by rw [hs, ht]; exact .cons tok .none .none hk hk' hts, hf⟩

theorem After.before {ctl : Ctl} (h : After ctl s t) (hf : ∀ gap tok, ctl.step gap tok = f tok) :
    Before f s t :=
  ⟨h.1, h.2.imp fun _ hts => ⟨hts.1, hts.2.follows hf⟩⟩

/-- Skipping white space makes the inputs ready. -/
theorem Before.ready (h : Before f s t) :
    ∃ c, Ready f c { s with rest := s.rest.dropWhile isspace }
      { t with rest := t.rest.dropWhile isspace } := by
  obtain ⟨hcmds, ts, hspelled, hf⟩ := h
  generalize hs : s.rest = r at hspelled
  generalize ht : t.rest = r' at hspelled
  cases hspelled with
  | nil w w' =>
    have hdrop : ∀ v : Ws, v.bytes.dropWhile isspace = [] := fun v => by
      have h := v.dropWhile_append []
      rwa [List.append_nil] at h
    exact ⟨none, .done hcmds (hdrop w) (hdrop w')⟩
  | cons tok w w' hk hk' hts =>
    obtain ⟨c, b, hb, hc⟩ := tok.exists_bytes_eq_cons
    refine ⟨some c, .token tok hb hcmds ?_ ?_ hk hk' hts hf⟩
    · rw [hb, List.cons_append, w.dropWhile_append_cons _ hc]
    · rw [hb, List.cons_append, w'.dropWhile_append_cons _ hc]

end

/-- The two runs are in step. -/
abbrev InStep (R : St → St → Prop) (R' : St → St → Prop) (m : Prog St Unit) : Prop :=
  Prog.Sim R SameCmds (fun _ _ => R') m m

section
variable {f : Tok → Option Ctl} {c : Option UInt8} {ctl : Ctl} {R R' : St → St → Prop}

theorem inStep_fail : InStep (Ready f c) R' .fail := Prog.Sim.fail fun _ _ => Ready.cmds

/-- Skip white space and look at the next byte. -/
theorem inStep_skip_peek {k : Option UInt8 → Prog St Unit}
    (h : ∀ c, InStep (Ready f c) R' (k c)) :
    InStep (Before f) R' (skipWs >>= fun _ => peek >>= k) := by
  intro s t hst
  obtain ⟨c, hready⟩ := hst.ready
  simp only [skipWs, peek, Prog.modify_bind_apply, Prog.modifyGet_bind_apply]
  rw [hready.head.1, hready.head.2]
  exact h c _ _ hready

/-- A step that leaves the input alone and puts the same commands on both outputs. -/
structure Keeps (g : St → St) : Prop where
  rest : ∀ s, (g s).rest = s.rest
  cmds : ∀ s t, s.cmds = t.cmds → (g s).cmds = (g t).cmds

theorem keeps_enter : Keeps fun st =>
    { st with active := st.active + 1, peak := max st.peak (st.active + 1) } :=
  ⟨fun _ => rfl, fun _ _ h => h⟩

theorem keeps_leave : Keeps fun st => { st with active := st.active - 1 } :=
  ⟨fun _ => rfl, fun _ _ h => h⟩

theorem keeps_emit (cs : List Cmd) : Keeps fun st => { st with cmds := st.cmds ++ cs } :=
  ⟨fun _ => rfl, fun _ _ h => congrArg (· ++ cs) h⟩

theorem After.keep {g : St → St} (hg : Keeps g) {s t : St} (h : After ctl s t) :
    After ctl (g s) (g t) :=
  ⟨hg.cmds s t h.1, by rw [hg.rest, hg.rest]; exact h.2⟩

theorem Before.keep {g : St → St} (hg : Keeps g) {s t : St} (h : Before f s t) :
    Before f (g s) (g t) :=
  ⟨hg.cmds s t h.1, by rw [hg.rest, hg.rest]; exact h.2⟩

theorem Ready.keep {g : St → St} (hg : Keeps g) {s t : St} (h : Ready f c s t) :
    Ready f c (g s) (g t) := by
  cases h with
  | done h hs ht =>
    exact .done (hg.cmds s t h) ((hg.rest s).trans hs) ((hg.rest t).trans ht)
  | token tok htok h hs ht hk hk' hts hf =>
    exact .token tok htok (hg.cmds s t h) ((hg.rest s).trans hs) ((hg.rest t).trans ht) hk hk' hts hf

theorem inStep_keep {R : St → St → Prop} {g : St → St} (h : ∀ s t, R s t → R (g s) (g t)) :
    InStep R R (.modify g) := Prog.Sim.modify h

theorem inStep_emit {R : St → St → Prop} (cs : List Cmd)
    (h : ∀ g, Keeps g → ∀ s t, R s t → R (g s) (g t)) : InStep R R (emit cs) :=
  inStep_keep (h _ (keeps_emit cs))

theorem Ready.congr {g : Tok → Option Ctl} {s t : St} (h : Ready f c s t)
    (hfg : ∀ tok, tok.bytes.head? = c → f tok = g tok) : Ready g c s t := by
  cases h with
  | done h hs ht => exact .done h hs ht
  | token tok htok h hs ht hk hk' hts hf =>
    refine .token tok htok h hs ht hk hk' hts ?_
    rw [← hfg tok (by rw [htok]; rfl)]
    exact hf

/-- What holds without the white space holds before it is skipped. -/
theorem InStep.ready {m : Prog St Unit} (h : InStep (Before f) R' m) (c : Option UInt8) :
    InStep (Ready f c) R' m := h.conseq (fun _ _ => Ready.before) fun _ _ _ _ h => h

end

/-- A value in front of which there is no white space. -/
theorem Ready.next {b : Bool} {d : Nat} {σ : List (Bool × Nat)} {c : Option UInt8} {s t : St}
    (h : Ready (Ctl.stepValue ((b, d) :: σ) (d + 1)) c s t) : After ⟨(b, d) :: σ, .next⟩ s t := by
  cases h with
  | done h hs ht => exact ⟨h, [], by rw [hs, ht]; exact .nil .none .none, trivial⟩
  | token tok htok h hs ht hk hk' hts hf =>
    exact ⟨h, (tok, .none, .none) :: _, by rw [hs, ht]; exact .cons tok .none .none hk hk' hts,
      fun _ _ => Iff.rfl, hf⟩

theorem inStep_skipWs {f : Tok → Option Ctl} {R : St → St → Prop}
    (h : ∀ c s t, Ready f c s t → R s t) : InStep (Before f) R skipWs := by
  refine Prog.Sim.modify fun s t hst => ?_
  obtain ⟨c, hready⟩ := hst.ready
  exact h c _ _ hready

theorem InStep.after {ctl : Ctl} {R : St → St → Prop} {m : Prog St Unit}
    (h : InStep (Before (Ctl.step false · ctl)) R m)
    (hgap : ∀ gap tok, ctl.step gap tok = ctl.step false tok) : InStep (After ctl) R m :=
  h.conseq (fun _ _ hst => hst.before hgap) fun _ _ _ _ h => h

/-! ## 4. The parser on two spellings -/

/-- Both runs read the token that stands before both. -/
theorem inStep_consume {f : Tok → Option Ctl} {ctl : Ctl} {b : UInt8} {m : Prog St Unit}
    (h : ∀ tok, tok.bytes.head? = some b → f tok = some ctl ∧ ∃ cs, ∀ k, tok.Ends k →
      ∀ st, st.rest = tok.bytes ++ k →
        m st = some (some (), { st with rest := k, cmds := st.cmds ++ cs })) :
    InStep (Ready f (some b)) (After ctl) m := by
  intro s t hst
  cases hst with
  | token tok htok hcmds hs ht hk hk' hts hagree =>
    obtain ⟨hctl, cs, hm⟩ := h tok (by rw [htok]; rfl)
    rw [hm _ hk s hs, hm _ hk' t ht]
    exact .value ⟨congrArg (· ++ cs) hcmds, _, hts, hagree ctl hctl⟩

end Trace

theorem Tok.eq_punct {tok : Tok} {b : UInt8} (hb : isPunct b = true)
    (h : tok.bytes.head? = some b) : tok = .punct b hb := by
  obtain ⟨-, hq, ht, hf, hn, hnum⟩ := isPunct_cases b hb
  cases tok with
  | punct c hc =>
    cases h
    rfl
  | string s =>
    cases h
    exact absurd rfl hq
  | literal l =>
    cases l <;> cases h
    · exact absurd rfl ht
    · exact absurd rfl hf
    · exact absurd rfl hn
  | number n =>
    cases h
    exact absurd n.start hnum

theorem Tok.eq_string {tok : Tok} (h : tok.bytes.head? = some quote) : ∃ s, tok = .string s := by
  cases tok with
  | punct c hc =>
    cases h
    cases hc
  | string s => exact ⟨s, rfl⟩
  | literal l => cases l <;> cases h
  | number n =>
    have hn := n.start
    rw [Option.some.inj (h : some n.first = _)] at hn
    exact absurd hn (by decide)

theorem Tok.eq_literal {tok : Tok} {l : Literal} (h : tok.bytes.head? = l.bytes.head?) :
    tok = .literal l := by
  cases tok with
  | punct c hc => cases l <;> cases h <;> cases hc
  | string s => cases l <;> cases h
  | literal l' => cases l <;> cases l' <;> first | rfl | cases h
  | number n =>
    have hn := n.start
    cases l <;> rw [Option.some.inj (h : some n.first = some _)] at hn <;>
      exact absurd hn (by decide)

theorem Tok.eq_number {tok : Tok} {b : UInt8} (hb : isdigit b = true ∨ b = minus)
    (h : tok.bytes.head? = some b) : ∃ n, tok = .number n := by
  cases tok with
  | punct c hc =>
    cases h
    exact absurd hb (isPunct_cases _ hc).2.2.2.2.2
  | string s =>
    cases h
    exact absurd hb (by decide)
  | literal l => cases l <;> cases h <;> exact absurd hb (by decide)
  | number n => exact ⟨n, rfl⟩

namespace Trace

section
variable {f : Tok → Option Ctl} {ctl : Ctl}

theorem inStep_next {b : UInt8} (hb : isPunct b = true) (hf : f (.punct b hb) = some ctl) :
    InStep (Ready f (some b)) (After ctl) next := by
  refine inStep_consume fun tok htok => ?_
  obtain rfl := Tok.eq_punct hb htok
  refine ⟨hf, [], fun k _ st hst => ?_⟩
  rw [next, Prog.modify_apply, hst, List.append_nil]
  rfl

theorem inStep_token {b : UInt8} {scan : List UInt8 → Scanned}
    (h : ∀ tok, tok.bytes.head? = some b → f tok = some ctl ∧ ∃ cs, ∀ k, tok.Ends k →
      scan (tok.bytes ++ k) = (cs, some k)) :
    InStep (Ready f (some b)) (After ctl) (token scan) := by
  refine inStep_consume fun tok htok => ?_
  obtain ⟨hf, cs, hscan⟩ := h tok htok
  refine ⟨hf, cs, fun k hk st hst => ?_⟩
  rw [token, hst, hscan k hk]

theorem inStep_string (hf : ∀ s, f (.string s) = some ctl) :
    InStep (Ready f (some quote)) (After ctl) string := by
  refine inStep_token fun tok htok => ?_
  obtain ⟨s, rfl⟩ := Tok.eq_string htok
  refine ⟨hf s, s.cmds, fun k _ => ?_⟩
  change stringBody (s.flatMap Item.bytes ++ [quote] ++ k) = _
  rw [List.append_assoc]
  exact stringBody_bytes s k

theorem inStep_lit (l : Literal) {b : UInt8} (hb : l.bytes.head? = some b)
    (hf : f (.literal l) = some ctl) :
    InStep (Ready f (some b)) (After ctl) (lit l.bytes) := by
  refine inStep_token fun tok htok => ?_
  obtain rfl := Tok.eq_literal (htok.trans hb.symm)
  exact ⟨hf, [.str l.bytes], fun k hk => scanLit_bytes l hk⟩

theorem inStep_number {b : UInt8} (hb : isdigit b = true ∨ b = minus)
    (hf : ∀ n, f (.number n) = some ctl) : InStep (Ready f (some b)) (After ctl) number := by
  refine inStep_token fun tok htok => ?_
  obtain ⟨n, rfl⟩ := Tok.eq_number hb htok
  exact ⟨hf n, _, fun k hk => scanNumber_bytes n hk⟩

end

theorem inStep_close {b : UInt8} {f : Tok → Option Ctl} {ctl : Ctl} (hb : isPunct b = true)
    (hf : f (.punct b hb) = some ctl) : InStep (Before f) (After ctl) (close b) := by
  refine inStep_skip_peek fun c => ?_
  refine Prog.Sim.ite (fun _ _ _ => Iff.rfl) (fun _ => inStep_fail) fun hc => ?_
  rw [Decidable.not_not.mp hc]
  exact (inStep_next hb hf).bind fun _ _ => inStep_keep fun _ _ => After.keep keeps_leave

end Trace

theorem Ws.head_ne (w : Ws) (hw : w.bytes ≠ []) (k : List UInt8) :
    ¬ ((w.bytes ++ k).head? = some lbrace ∨ (w.bytes ++ k).head? = some lbracket) := by
  obtain ⟨_ | ⟨c, cs⟩, hsp⟩ := w
  · exact absurd rfl hw
  · rw [List.all_cons, Bool.and_eq_true] at hsp
    rintro (⟨⟨⟩⟩ | ⟨⟨⟩⟩) <;> exact absurd hsp.1 (by decide)

/-- A bracket is next if the token is one and no white space stands before it. -/
theorem Tok.head_iff (tok : Tok) (w : Ws) (k : List UInt8) :
    ((w.bytes ++ (tok.bytes ++ k)).head? = some lbrace ∨
      (w.bytes ++ (tok.bytes ++ k)).head? = some lbracket) ↔ w.bytes = [] ∧ tok.Opens := by
  by_cases hw : w.bytes = []
  · obtain ⟨c, r, hc, -⟩ := tok.exists_bytes_eq_cons
    rw [hw, List.nil_append, hc, List.cons_append, List.head?_cons]
    constructor
    · rintro (h | h)
      · have htok : tok = .punct lbrace rfl := Tok.eq_punct rfl (by rw [hc]; exact h)
        exact ⟨rfl, .inl (congrArg Tok.bytes htok)⟩
      · have htok : tok = .punct lbracket rfl := Tok.eq_punct rfl (by rw [hc]; exact h)
        exact ⟨rfl, .inr (congrArg Tok.bytes htok)⟩
    · rintro ⟨-, h | h⟩
      · exact .inl (by rw [h] at hc; cases hc; rfl)
      · exact .inr (by rw [h] at hc; cases hc; rfl)
  · exact iff_of_false (w.head_ne hw _) fun h => hw h.1

/-- The depth matters only where a container opens. -/
theorem Ctl.stepValue_scalar {tok : Tok} (h : ¬ tok.Opens) (σ : List (Bool × Nat)) (d d' : Nat) :
    stepValue σ d tok = stepValue σ d' tok := by
  cases tok with
  | punct c hc =>
    have hobj : c ≠ lbrace := fun hc => h (.inl (congrArg ([·]) hc))
    have harr : c ≠ lbracket := fun hc => h (.inr (congrArg ([·]) hc))
    simp only [stepValue, if_neg hobj, if_neg harr, ite_self]
  | string | literal | number => rfl

namespace Trace

/-- The value of a member or an element: only a bracket without white space before it is seen to
open a container. -/
theorem inStep_child {fuel : Nat} {b : Bool} {d : Nat} {σ : List (Bool × Nat)}
    (hvalue : ∀ d', InStep (Before (Ctl.stepValue ((b, d) :: σ) d')) (After ⟨(b, d) :: σ, .after⟩)
      (value fuel d')) :
    InStep (After ⟨(b, d) :: σ, .next⟩) (After ⟨(b, d) :: σ, .after⟩) (child (value fuel) d) := by
  have hdeep : InStep (Before (Ctl.stepValue ((b, d) :: σ) (d + 1))) (After ⟨(b, d) :: σ, .after⟩)
      (emit [.flush] >>= fun _ => value fuel (d + 1)) :=
    (inStep_emit _ fun _ hg _ _ => Before.keep hg).bind fun _ _ => hvalue (d + 1)
  have hflat : InStep (Before (Ctl.stepValue ((b, d) :: σ) d)) (After ⟨(b, d) :: σ, .after⟩)
      (value fuel d >>= fun _ => emit [.flush]) :=
    (hvalue d).bind fun _ _ => inStep_emit _ fun _ hg _ _ => After.keep hg
  intro s t hst
  obtain ⟨hcmds, ts, hts, hagree⟩ := hst
  rw [child, peek, Prog.modifyGet_bind_apply, Prog.modifyGet_bind_apply]
  generalize hs : s.rest = r at hts
  generalize ht : t.rest = r' at hts
  cases hts with
  | nil w w' =>
    have hend : ∀ v : Ws, ¬ (v.bytes.head? = some lbrace ∨ v.bytes.head? = some lbracket) := by
      intro v hv
      by_cases hnil : v.bytes = []
      · simp [hnil] at hv
      · exact v.head_ne hnil [] (by rwa [List.append_nil])
    rw [if_neg (hend w), if_neg (hend w')]
    exact hflat s t ⟨hcmds, [], by rw [hs, ht]; exact .nil w w', trivial⟩
  | @cons tok w w' ts k k' hk hk' hts =>
    have hsp : Spelled ((tok, w, w') :: ts) s.rest t.rest := by
      rw [hs, ht]
      exact .cons tok w w' hk hk' hts
    by_cases hdeeper : tok.Opens ∧ w.bytes = []
    · obtain ⟨hopens, hw⟩ := hdeeper
      -- the spellings agree on white space before a bracket
      have hw' := (hagree.1 rfl hopens).mp hw
      rw [if_pos ((tok.head_iff w _).mpr ⟨hw, hopens⟩), if_pos ((tok.head_iff w' _).mpr ⟨hw', hopens⟩)]
      exact hdeep s t ⟨hcmds, _, hsp, fun ctl hctl => hagree.2 ctl (by rw [hw]; exact hctl)⟩
    -- no container is seen, so the value is read at the same depth in both
    · have hw : ¬ (w.bytes = [] ∧ tok.Opens) := fun h => hdeeper h.symm
      have hw' : ¬ (w'.bytes = [] ∧ tok.Opens) := fun h =>
        hdeeper ⟨h.2, (hagree.1 rfl h.2).mpr h.1⟩
      rw [if_neg (mt (tok.head_iff w _).mp hw), if_neg (mt (tok.head_iff w' _).mp hw')]
      refine hflat s t ⟨hcmds, _, hsp, fun ctl hctl => hagree.2 ctl (Eq.trans ?_ hctl)⟩
      by_cases hopens : tok.Opens
      · have hgap : (!w.bytes.isEmpty) = true := by
          cases hb : w.bytes with
          | nil => exact absurd ⟨hb, hopens⟩ hw
          | cons => rfl
        rw [hgap]
        rfl
      · exact Ctl.stepValue_scalar hopens _ _ _

/-- Behind the opening bracket of a container: it is closed at once, or goes on. -/
theorem inStep_opened {b : Bool} {d : Nat} {σ : List (Bool × Nat)} {bracket : UInt8}
    {k : Prog St Unit} (hb : isPunct bracket = true)
    (hf : ∀ gap, Ctl.step gap (.punct bracket hb) ⟨(b, d) :: σ, .opened⟩ = some ⟨σ, .after⟩)
    (h : ∀ c, c ≠ some bracket → InStep (Ready (Ctl.step false · ⟨(b, d) :: σ, .opened⟩) c)
      (After ⟨σ, .after⟩) k) :
    InStep (After ⟨(b, d) :: σ, .opened⟩) (After ⟨σ, .after⟩)
      (do
        skipWs
        let c ← peek
        if c = some bracket then do
          next
          leave
        else k) := by
  refine InStep.after (inStep_skip_peek fun c => ?_) fun _ _ => by cases b <;> rfl
  refine Prog.Sim.ite (fun _ _ _ => Iff.rfl) (fun hc => ?_) (h c)
  rw [hc]
  exact (inStep_next hb (hf _)).bind fun _ _ => inStep_keep fun _ _ => After.keep keeps_leave

/-- Behind a value: a comma, or the closing bracket. -/
theorem inStep_after {b : Bool} {d : Nat} {σ : List (Bool × Nat)} {bracket : UInt8} {m : Mode}
    {k : Prog St Unit} (hb : isPunct bracket = true)
    (hf : ∀ gap, Ctl.step gap (.punct bracket hb) ⟨(b, d) :: σ, .after⟩ = some ⟨σ, .after⟩)
    (hm : ∀ gap, Ctl.step gap (.punct comma rfl) ⟨(b, d) :: σ, .after⟩ = some ⟨(b, d) :: σ, m⟩)
    (h : InStep (After ⟨(b, d) :: σ, m⟩) (After ⟨σ, .after⟩) k) :
    InStep (After ⟨(b, d) :: σ, .after⟩) (After ⟨σ, .after⟩)
      (do
        skipWs
        let c ← peek
        if c = some comma then do
          next
          k
        else close bracket) := by
  refine InStep.after (inStep_skip_peek fun c => ?_) fun _ _ => by cases b <;> rfl
  refine Prog.Sim.ite (fun _ _ _ => Iff.rfl) (fun hc => ?_) fun _ => ?_
  · rw [hc]
    exact (inStep_next rfl (hm _)).bind fun _ _ => h
  · exact (inStep_close hb (hf _)).ready c

section Functions

variable {fuel d : Nat} {σ : List (Bool × Nat)}

theorem inStep_value
    (hobject : InStep (Ready (Ctl.stepValue σ d) (some lbrace)) (After ⟨σ, .after⟩) (object fuel d))
    (harray : InStep (Ready (Ctl.stepValue σ d) (some lbracket)) (After ⟨σ, .after⟩)
      (array fuel d)) :
    InStep (Before (Ctl.stepValue σ d)) (After ⟨σ, .after⟩) (value (fuel + 1) d) := by
  rw [value]
  refine inStep_skip_peek fun c => ?_
  rcases c with _ | c
  · exact inStep_fail
  refine Prog.Sim.ite (fun _ _ _ => Iff.rfl) (fun hc => hc ▸ hobject) fun _ => ?_
  refine Prog.Sim.ite (fun _ _ _ => Iff.rfl) (fun hc => hc ▸ harray) fun _ => ?_
  refine Prog.Sim.ite (fun _ _ _ => Iff.rfl) (fun hc => ?_) fun _ => ?_
  · exact hc ▸ inStep_string fun _ => rfl
  refine Prog.Sim.ite (fun _ _ _ => Iff.rfl) (fun hc => ?_) fun _ => ?_
  · exact inStep_lit .true (by rw [hc]; rfl) rfl
  refine Prog.Sim.ite (fun _ _ _ => Iff.rfl) (fun hc => ?_) fun _ => ?_
  · exact inStep_lit .false (by rw [hc]; rfl) rfl
  refine Prog.Sim.ite (fun _ _ _ => Iff.rfl) (fun hc => ?_) fun _ => ?_
  · exact inStep_lit .null (by rw [hc]; rfl) rfl
  exact Prog.Sim.ite (fun _ _ _ => Iff.rfl) (fun hc => inStep_number hc fun _ => rfl)
    fun _ => inStep_fail

theorem inStep_object
    (hmembers : InStep (Before (Ctl.stepKey ((false, d) :: σ))) (After ⟨σ, .after⟩)
      (members fuel d)) :
    InStep (Ready (Ctl.stepValue σ d) (some lbrace)) (After ⟨σ, .after⟩)
      (object (fuel + 1) d) := by
  rw [object]
  refine Prog.Sim.ite (fun _ _ _ => Iff.rfl) (fun _ => inStep_fail) fun hd => ?_
  refine Prog.Sim.bind (inStep_keep fun _ _ => Ready.keep keeps_enter) fun _ _ => ?_
  have hopen : Ctl.stepValue σ d (.punct lbrace rfl) = some ⟨(false, d) :: σ, .opened⟩ :=
    (if_neg hd).trans (if_pos rfl)
  refine (inStep_next rfl hopen).bind fun _ _ => inStep_opened rfl (fun _ => rfl) fun c hc => ?_
  -- the next token is not the closing brace
  refine hmembers.ready c |>.conseq (fun _ _ hst => hst.congr fun tok htok => ?_)
    fun _ _ _ _ h => h
  exact if_neg fun h => hc (htok.symm.trans (congrArg List.head? h))

theorem inStep_members
    (hvalue : ∀ d', InStep (Before (Ctl.stepValue ((false, d) :: σ) d'))
      (After ⟨(false, d) :: σ, .after⟩) (value fuel d'))
    (hmembers : InStep (Before (Ctl.stepKey ((false, d) :: σ))) (After ⟨σ, .after⟩)
      (members fuel d)) :
    InStep (Before (Ctl.stepKey ((false, d) :: σ))) (After ⟨σ, .after⟩) (members (fuel + 1) d) := by
  rw [members]
  refine inStep_skip_peek fun c => ?_
  refine Prog.Sim.ite (fun _ _ _ => Iff.rfl) (fun _ => inStep_fail) fun hc => ?_
  rw [Decidable.not_not.mp hc]
  refine (inStep_emit _ fun _ hg _ _ => Ready.keep hg).bind fun _ _ => ?_
  refine (inStep_string fun _ => rfl).bind fun _ _ =>
    InStep.after (inStep_skip_peek fun c => ?_) fun _ _ => rfl
  refine Prog.Sim.ite (fun _ _ _ => Iff.rfl) (fun _ => inStep_fail) fun hc => ?_
  rw [Decidable.not_not.mp hc]
  have hmember : InStep (After ⟨(false, d) :: σ, .member⟩) (After ⟨(false, d) :: σ, .next⟩)
      skipWs := InStep.after (inStep_skipWs fun _ _ _ => Ready.next) fun _ _ => rfl
  refine (inStep_next rfl rfl).bind fun _ _ => hmember.bind fun _ _ => ?_
  refine (inStep_emit _ fun _ hg _ _ => After.keep hg).bind fun _ _ => ?_
  refine (inStep_child hvalue).bind fun _ _ => ?_
  refine inStep_after rfl (fun _ => rfl) (fun _ => rfl) ?_
  exact InStep.after hmembers fun _ _ => rfl

theorem inStep_array
    (helements : InStep (After ⟨(true, d) :: σ, .next⟩) (After ⟨σ, .after⟩) (elements fuel d)) :
    InStep (Ready (Ctl.stepValue σ d) (some lbracket)) (After ⟨σ, .after⟩)
      (array (fuel + 1) d) := by
  rw [array]
  refine Prog.Sim.ite (fun _ _ _ => Iff.rfl) (fun _ => inStep_fail) fun hd => ?_
  refine Prog.Sim.bind (inStep_keep fun _ _ => Ready.keep keeps_enter) fun _ _ => ?_
  have hopen : Ctl.stepValue σ d (.punct lbracket rfl) = some ⟨(true, d) :: σ, .opened⟩ :=
    (if_neg hd).trans ((if_neg (by decide)).trans (if_pos rfl))
  refine (inStep_next rfl hopen).bind fun _ _ => inStep_opened rfl (fun _ => rfl) fun c hc => ?_
  -- the next token is not the closing bracket
  refine helements.conseq (fun _ _ hst => (hst.congr fun tok htok => ?_).next)
    fun _ _ _ _ h => h
  exact if_neg fun h => hc (htok.symm.trans (congrArg List.head? h))

theorem inStep_elements
    (hvalue : ∀ d', InStep (Before (Ctl.stepValue ((true, d) :: σ) d'))
      (After ⟨(true, d) :: σ, .after⟩) (value fuel d'))
    (helements : InStep (After ⟨(true, d) :: σ, .next⟩) (After ⟨σ, .after⟩) (elements fuel d)) :
    InStep (After ⟨(true, d) :: σ, .next⟩) (After ⟨σ, .after⟩) (elements (fuel + 1) d) := by
  rw [elements]
  refine (inStep_emit _ fun _ hg _ _ => After.keep hg).bind fun _ _ => ?_
  refine (inStep_emit _ fun _ hg _ _ => After.keep hg).bind fun _ _ => ?_
  refine (inStep_child hvalue).bind fun _ _ => ?_
  exact inStep_after rfl (fun _ => rfl) (fun _ => rfl) helements

end Functions

theorem inStep_parse (fuel : Nat) :
    (∀ d σ, InStep (Before (Ctl.stepValue σ d)) (After ⟨σ, .after⟩) (value fuel d)) ∧
    (∀ d σ, InStep (Ready (Ctl.stepValue σ d) (some lbrace)) (After ⟨σ, .after⟩) (object fuel d)) ∧
    (∀ d σ, InStep (Before (Ctl.stepKey ((false, d) :: σ))) (After ⟨σ, .after⟩)
      (members fuel d)) ∧
    (∀ d σ, InStep (Ready (Ctl.stepValue σ d) (some lbracket)) (After ⟨σ, .after⟩)
      (array fuel d)) ∧
    (∀ d σ, InStep (After ⟨(true, d) :: σ, .next⟩) (After ⟨σ, .after⟩) (elements fuel d)) := by
  induction fuel with
  | zero => exact ⟨fun _ _ => .diverge, fun _ _ => .diverge, fun _ _ => .diverge,
      fun _ _ => .diverge, fun _ _ => .diverge⟩
  | succ fuel ih =>
    obtain ⟨hvalue, hobject, hmembers, harray, helements⟩ := ih
    exact ⟨fun d σ => inStep_value (hobject d σ) (harray d σ),
      fun d σ => inStep_object (hmembers d σ),
      fun d σ => inStep_members (fun d' => hvalue d' _) (hmembers d σ),
      fun d σ => inStep_array (helements d σ),
      fun d σ => inStep_elements (fun d' => hvalue d' _) (helements d σ)⟩

/-- Two spellings of the same tokens are read with the same output. -/
theorem run_spelled {ts : List (Tok × Ws × Ws)} {s t : List UInt8} (h : Spelled ts s t)
    (hagree : Agree ⟨[], .text⟩ ts) : ∃ r st st', run s = some (r, st) ∧ run t = some (r, st') ∧
      st.cmds = st'.cmds := by
  obtain ⟨r, st, hs⟩ := exists_run s
  obtain ⟨r', st', ht⟩ := exists_run t
  have htext : ∀ fuel, InStep (After ⟨[], .text⟩) (fun s t => s.cmds = t.cmds) (text fuel) := by
    intro fuel
    refine InStep.after (inStep_skip_peek fun c => ?_) fun _ _ => rfl
    refine Prog.Sim.ite (fun _ _ _ => Iff.rfl) (fun _ => inStep_fail) fun _ => ?_
    refine (((inStep_parse fuel).1 0 []).ready c).bind fun _ _ =>
      InStep.after (inStep_skip_peek fun c => ?_) fun _ _ => rfl
    refine Prog.Sim.ite (fun _ _ _ => Iff.rfl) (fun _ => inStep_fail) fun _ => ?_
    exact Prog.Sim.modify fun _ _ hst => congrArg (· ++ _) hst.cmds
  have hrel := htext (max (Stream.callBound s) (Stream.callBound t)) (.start s) (.start t)
    ⟨rfl, ts, h, hagree⟩
  rw [text_mono (Nat.le_max_left _ _) _ _ hs, text_mono (Nat.le_max_right _ _) _ _ ht] at hrel
  cases hrel with
  | error h => exact ⟨none, st, st', hs, ht, h⟩
  | value h => exact ⟨some (), st, st', hs, ht, h⟩

end Trace

/-! ## 5. Insignificant white space -/

/-- Two spellings of the same tokens have the same outcome if they agree on where white space
stands between a comma of an array and a bracket. -/
theorem main_spelled {ts : List (Tok × Ws × Ws)} {s t : List UInt8} (h : Spelled ts s t)
    (hagree : Agree ⟨[], .text⟩ ts) : ∃ e e', Stream.main s = some e ∧ Stream.main t = some e' ∧
      e.stdout = e'.stdout ∧ e.status = e'.status := by
  obtain ⟨r, st, st', hs, ht, hcmds⟩ := Trace.run_spelled h hagree
  obtain ⟨e, he, hout, -⟩ := Stream.main_outcome hs
  obtain ⟨e', he', hout', -⟩ := Stream.main_outcome ht
  have hsame : e.outcome = e'.outcome := by rw [hout, hout', hcmds]
  simp only [Exit.outcome, Outcome.mk.injEq] at hsame
  exact ⟨e, e', he, he', hsame.2.1, hsame.1⟩

/-- A token between the white space before it in one spelling and in the other. -/
def spaced (tok : Tok) (n n' : Nat) : Tok × Ws × Ws :=
  (tok, ⟨List.replicate n Ascii.space, by simp [isspace]⟩,
    ⟨List.replicate n' Ascii.space, by simp [isspace]⟩)

def digit (c : UInt8) (h : isdigit c = true ∨ c = minus) : Tok := .number ⟨c, [], h, rfl⟩

/-- `[ 1, [ 2 ] ]` and `[1, [2]]`. -/
theorem main_spelled_inner_spaces : ∃ e e', Stream.main (Ascii.bytes "[ 1, [ 2 ] ]") = some e ∧
    Stream.main (Ascii.bytes "[1, [2]]") = some e' ∧ e.stdout = e'.stdout ∧
      e.status = e'.status := by
  have hspelled : Spelled
      [spaced (.punct lbracket rfl) 0 0, spaced (digit 0x31 (by decide)) 1 0,
        spaced (.punct comma rfl) 0 0, spaced (.punct lbracket rfl) 1 1,
        spaced (digit 0x32 (by decide)) 1 0, spaced (.punct rbracket rfl) 1 0,
        spaced (.punct rbracket rfl) 1 0]
      [0x5B, 0x20, 0x31, 0x2C, 0x20, 0x5B, 0x20, 0x32, 0x20, 0x5D, 0x20, 0x5D]
      [0x5B, 0x31, 0x2C, 0x20, 0x5B, 0x32, 0x5D, 0x5D] := by
    repeat' first | exact .nil .none .none | refine .cons _ _ _ (by decide +kernel) (by decide +kernel) ?_
  have hs : Ascii.bytes "[ 1, [ 2 ] ]" = [0x5B, 0x20, 0x31, 0x2C, 0x20, 0x5B, 0x20, 0x32, 0x20,
    0x5D, 0x20, 0x5D] := by decide +kernel
  have ht : Ascii.bytes "[1, [2]]" = [0x5B, 0x31, 0x2C, 0x20, 0x5B, 0x32, 0x5D, 0x5D] := by
    decide +kernel
  rw [hs, ht]
  exact main_spelled hspelled (by decide +kernel)

/-- `[1, [2]]` and `[1,[2]]`: the depth of the inner array is not the same. -/
theorem not_main_spelled_spaced_array :
    ¬ ∀ (ts : List (Tok × Ws × Ws)) (s t : List UInt8), Spelled ts s t →
      ∃ e e', Stream.main s = some e ∧ Stream.main t = some e' ∧ e.stdout = e'.stdout ∧
        e.status = e'.status := by
  intro h
  have hspelled : Spelled
      [spaced (.punct lbracket rfl) 0 0, spaced (digit 0x31 (by decide)) 0 0,
        spaced (.punct comma rfl) 0 0, spaced (.punct lbracket rfl) 1 0,
        spaced (digit 0x32 (by decide)) 0 0, spaced (.punct rbracket rfl) 0 0,
        spaced (.punct rbracket rfl) 0 0]
      [0x5B, 0x31, 0x2C, 0x20, 0x5B, 0x32, 0x5D, 0x5D]
      [0x5B, 0x31, 0x2C, 0x5B, 0x32, 0x5D, 0x5D] := by
    repeat' first | exact .nil .none .none | refine .cons _ _ _ (by decide +kernel) (by decide +kernel) ?_
  obtain ⟨e, e', he, he', hout, -⟩ := h _ _ _ hspelled
  have hne : (Stream.main [0x5B, 0x31, 0x2C, 0x20, 0x5B, 0x32, 0x5D, 0x5D]).map Exit.stdout ≠
      (Stream.main [0x5B, 0x31, 0x2C, 0x5B, 0x32, 0x5D, 0x5D]).map Exit.stdout := by
    decide +kernel
  rw [he, he', Option.map_some, Option.map_some, hout] at hne
  exact hne rfl

end J2t
