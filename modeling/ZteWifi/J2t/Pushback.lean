import ZteWifi.J2t.Agreement
import ZteWifi.J2t.Reads

/-!
# The pushback stack

The bytes the parse has consumed, those it has pushed back and those it has not read are the input,
at every call of the reader, and the stack never holds more than six bytes.
-/

open Ascii

namespace J2t

namespace Parse

/-! ## 1. What has been consumed -/

/-- The static variables, and the bytes consumed so far. -/
structure Ghost where
  st : Stream.St
  consumed : List UInt8

def Ghost.start (input : List UInt8) : Ghost := ⟨Stream.St.start input, []⟩

/-- `rd_get` consumes a byte, `rd_peek` none, and `rd_unget` gives one back. -/
def Ghost.track : Op → Ghost → List UInt8
  | .get, g => g.consumed ++ g.st.rd.rdGet.1.toList
  | .unget (some _), g => g.consumed.dropLast
  | _, g => g.consumed

def Ghost.exec : Calls.Handler Op Op.Ans Ghost := fun op g =>
  ((op.exec g.st).1, ⟨(op.exec g.st).2, g.track op⟩)

/-- Bytes pushed back and bytes not read. -/
def Ghost.left (g : Ghost) : Nat := g.st.rd.pb.length + g.st.rd.input.length

/-- The invariant of the reader: at most `n` bytes are on the stack, and nothing is lost, doubled or
out of order. -/
structure Tracks (input : List UInt8) (n : Nat) (g : Ghost) : Prop where
  pb : g.st.rd.pb.length ≤ n
  split : g.consumed ++ (g.st.rd.pb ++ g.st.rd.input) = input

/-- What holds before a call. -/
def Safe (input : List UInt8) (op : Op) (g : Ghost) : Prop :=
  Tracks input 6 g ∧ ((op = .peek ∨ ∃ c, op = .unget c) → g.st.rd.pb.length < rdPb)

/-- The conditions on a function of the parse. -/
abbrev wp {α : Type} (input : List UInt8) (m : Parse α) (Q : α → Ghost → Prop) (g : Ghost) :
    Prop :=
  Calls.wp Ghost.exec (Safe input) (Tracks input 6) m Q g

section
variable {input : List UInt8} {n : Nat} {g : Ghost}

theorem Tracks.mono (h : Tracks input n g) {m : Nat} (hnm : n ≤ m) : Tracks input m g :=
  ⟨Nat.le_trans h.pb hnm, h.split⟩

theorem Tracks.safe (h : Tracks input n g) (hn : n ≤ 6) (op : Op) : Safe input op g :=
  ⟨h.mono hn, fun _ => Nat.lt_of_le_of_lt (h.mono hn).pb (by decide)⟩

/-- What is consumed is no longer left. -/
theorem Tracks.left_eq (h : Tracks input n g) : g.consumed.length + g.left = input.length := by
  rw [← h.split, List.length_append, List.length_append, Ghost.left]

/-! ## 2. The operations -/

/-- `rd_get` takes a byte off the stack, if there is one. -/
theorem wp_rdGet (h : Tracks input n g) (hn : n ≤ 6) {Q : Option UInt8 → Ghost → Prop}
    (hnone : ∀ g', g.st.rd.content.head? = none → Tracks input 6 g' → Q none g')
    (hsome : ∀ c g', g.st.rd.content.head? = some c → Tracks input (n - 1) g' →
      g'.consumed = g.consumed ++ [c] → Q (some c) g') : wp input rdGet Q g := by
  refine ⟨h.safe hn _, ?_⟩
  have hpb : g.st.rd.rdGet.2.pb.length ≤ n - 1 := by
    rw [Reader.rdGet_pb, List.length_tail]
    exact Nat.sub_le_sub_right h.pb 1
  have hcontent : g.st.rd.rdGet.2.content = g.st.rd.content.tail := Reader.rdGet_content _
  have hsplit : g.consumed ++ g.st.rd.content = input := h.split
  show Q g.st.rd.rdGet.1 ⟨_, g.consumed ++ g.st.rd.rdGet.1.toList⟩
  rw [Reader.rdGet_fst]
  rcases hc : g.st.rd.content with _ | ⟨c, rest⟩
  · rw [hc] at hcontent hsplit
    refine hnone _ (by rw [hc]; rfl) ⟨Nat.le_trans hpb (by omega), ?_⟩
    show g.consumed ++ [] ++ g.st.rd.rdGet.2.content = input
    rw [List.append_nil, hcontent, List.tail_nil]
    exact hsplit
  · rw [hc] at hcontent hsplit
    refine hsome c _ (by rw [hc]; rfl) ⟨hpb, ?_⟩ rfl
    show g.consumed ++ [c] ++ g.st.rd.rdGet.2.content = input
    rw [hcontent, List.tail_cons, List.append_assoc, List.singleton_append]
    exact hsplit

/-- `rd_peek` leaves the input as it is. -/
theorem wp_rdPeek (h : Tracks input n g) (hn : n ≤ 6) {Q : Option UInt8 → Ghost → Prop}
    (hQ : ∀ g', Tracks input (max n 1) g' → g'.consumed = g.consumed →
      Q g'.st.rd.content.head? g') : wp input rdPeek Q g := by
  refine ⟨h.safe hn _, ?_⟩
  have hcontent : g.st.rd.rdPeek.2.content = g.st.rd.content :=
    Reader.rdPeek_content (Nat.le_trans h.pb (Nat.le_trans hn (by decide)))
  have hpb := Reader.rdPeek_pb_length g.st.rd
  have hle := h.pb
  show Q g.st.rd.rdPeek.1 _
  rw [Reader.rdPeek_fst, ← hcontent]
  refine hQ (Ghost.exec .peek g).2 ⟨?_, ?_⟩ rfl
  · show g.st.rd.rdPeek.2.pb.length ≤ max n 1
    omega
  · show g.consumed ++ g.st.rd.rdPeek.2.content = input
    rw [hcontent]
    exact h.split

/-- `rd_unget` gives back the byte consumed last. -/
theorem wp_rdUnget (h : Tracks input n g) (hn : n < 6) {w : List UInt8} {c : UInt8}
    (hc : g.consumed = w ++ [c]) {Q : Unit → Ghost → Prop}
    (hQ : ∀ g', Tracks input (n + 1) g' → g'.consumed = w → Q () g') :
    wp input (rdUnget (some c)) Q g := by
  refine ⟨h.safe (Nat.le_of_lt hn) _, ?_⟩
  have hroom : g.st.rd.pb.length < rdPb := by
    have := h.pb
    simp only [rdPb]
    omega
  have hdrop : g.consumed.dropLast = w := by rw [hc, List.dropLast_concat]
  refine hQ _ ⟨?_, ?_⟩ hdrop
  · show (g.st.rd.rdUnget (some c)).pb.length ≤ n + 1
    rw [Reader.rdUnget_pb c hroom, List.length_cons]
    exact Nat.succ_le_succ h.pb
  · show g.consumed.dropLast ++ (g.st.rd.rdUnget (some c)).content = input
    rw [hdrop, Reader.rdUnget_content c hroom, ← h.split, hc, List.append_assoc,
      List.singleton_append]
    rfl

/-- The other calls leave the reader as it is. -/
theorem wp_out (h : Tracks input n g) (hn : n ≤ 6) (c : LineBuf.Cmd) {Q : Unit → Ghost → Prop}
    (hQ : ∀ g', Tracks input n g' → g'.consumed = g.consumed → Q () g') :
    wp input (out c) Q g :=
  ⟨h.safe hn _, hQ _ ⟨h.pb, h.split⟩ rfl⟩

/-- Byte by byte the digits are consumed. -/
theorem wp_readHex (k : Nat) (hex : List UInt8) (v : Nat) (h : Tracks input n g) (hn : n ≤ 6)
    {Q : List UInt8 × Nat → Ghost → Prop}
    (hQ : ∀ digits v' g', digits.length = k → Tracks input (n - k) g' →
      g'.consumed = g.consumed ++ digits → Q (hex ++ digits, v') g') :
    wp input (readHex k hex v) Q g := by
  induction k generalizing hex v n g with
  | zero =>
    have hdone := hQ [] v g rfl h (List.append_nil _).symm
    rwa [List.append_nil] at hdone
  | succ k ih =>
    refine Calls.wp_bind.mpr (wp_rdGet h hn (fun g' _ h' => h') fun c g₁ _ h₁ hc₁ => ?_)
    dsimp only
    cases hexDigit c with
    | none => exact h₁.mono (by omega)
    | some d =>
      refine ih (hex ++ [c]) (v * 16 + d) h₁ (by omega) fun digits v' g' hlen h' hc' => ?_
      rw [List.append_assoc, List.singleton_append]
      refine hQ (c :: digits) v' g' (by rw [List.length_cons, hlen]) ?_ ?_
      · rwa [Nat.sub_sub, Nat.add_comm] at h'
      · rw [hc', hc₁, List.append_assoc, List.singleton_append]

/-! ## 3. The escape -/

/-- Where a function of the parse may end: the invariant holds, and at least `m` bytes are
consumed. -/
def Past (input : List UInt8) (m : Nat) (g : Ghost) : Prop :=
  Tracks input 6 g ∧ m ≤ g.consumed.length

/-- The six bytes of an escape that has been read go back onto an empty stack. -/
theorem wp_ungetEscape (h : Tracks input 0 g) {w hex : List UInt8} (hlen : hex.length = 4)
    (hc : g.consumed = w ++ [backslash, 0x75] ++ hex) :
    wp input (ungetEscape hex) (fun _ => Past input w.length) g := by
  obtain ⟨d₀, d₁, d₂, d₃, rfl⟩ := List.length_eq_four.mp hlen
  replace hc : g.consumed = w ++ [backslash] ++ [0x75] ++ [d₀] ++ [d₁] ++ [d₂] ++ [d₃] := by
    rw [hc]
    simp only [List.append_assoc, List.cons_append, List.nil_append]
  refine Calls.wp_bind.mpr (wp_rdUnget h (by decide) hc fun g₁ h₁ hc₁ => ?_)
  refine Calls.wp_bind.mpr (wp_rdUnget h₁ (by decide) hc₁ fun g₂ h₂ hc₂ => ?_)
  refine Calls.wp_bind.mpr (wp_rdUnget h₂ (by decide) hc₂ fun g₃ h₃ hc₃ => ?_)
  refine Calls.wp_bind.mpr (wp_rdUnget h₃ (by decide) hc₃ fun g₄ h₄ hc₄ => ?_)
  refine Calls.wp_bind.mpr (wp_rdUnget h₄ (by decide) hc₄ fun g₅ h₅ hc₅ => ?_)
  exact wp_rdUnget h₅ (by decide) hc₅ fun g₆ h₆ hc₆ => ⟨h₆, Nat.le_of_eq (by rw [hc₆])⟩

theorem wp_readLowSurrogate (v : Nat) (h : Tracks input 0 g) {w : List UInt8}
    (hc : g.consumed = w ++ [backslash, 0x75]) :
    wp input (readLowSurrogate v) (fun _ => Past input w.length) g := by
  refine Calls.wp_bind.mpr (wp_readHex 4 [] 0 h (by decide) fun digits lo g₁ hlen h₁ hc₁ => ?_)
  rw [hc] at hc₁
  dsimp only
  rw [List.nil_append]
  split
  · exact wp_ungetEscape h₁ hlen hc₁
  · refine wp_out h₁ (by decide) _ fun g₂ h₂ hc₂ => ⟨h₂.mono (by decide), ?_⟩
    rw [hc₂, hc₁, List.append_assoc, List.length_append]
    exact Nat.le_add_right _ _

/-- What is given back behind a high surrogate has been read behind it. -/
theorem wp_parseLowSurrogate (v : Nat) (h : Tracks input 0 g) :
    wp input (parseLowSurrogate v) (fun _ => Past input g.consumed.length) g := by
  refine Calls.wp_bind.mpr (wp_rdPeek h (by decide) fun g₁ h₁ hc₁ => ?_)
  have hpast : Past input g.consumed.length g₁ := ⟨h₁.mono (by decide), by rw [hc₁]⟩
  split
  · exact hpast
  · next hback =>
    replace hback := not_not.mp hback
    refine Calls.wp_bind.mpr (wp_rdGet h₁ (by decide) (fun g₂ hnone _ => ?_)
      fun c g₂ hsome h₂ hc₂ => ?_)
    · rw [hback] at hnone
      cases hnone
    obtain rfl : backslash = c := Option.some.inj (hback.symm.trans hsome)
    refine Calls.wp_bind.mpr (wp_rdPeek h₂ (by decide) fun g₃ h₃ hc₃ => ?_)
    rw [hc₂, hc₁] at hc₃
    split
    · exact wp_rdUnget h₃ (by decide) hc₃ fun g₄ h₄ hc₄ =>
        ⟨h₄.mono (by decide), Nat.le_of_eq (by rw [hc₄])⟩
    · next hu =>
      replace hu := not_not.mp hu
      refine Calls.wp_bind.mpr (wp_rdGet h₃ (by decide) (fun g₄ hnone _ => ?_)
        fun c g₄ hsome h₄ hc₄ => ?_)
      · rw [hu] at hnone
        cases hnone
      obtain rfl : 0x75 = c := Option.some.inj (hu.symm.trans hsome)
      refine wp_readLowSurrogate v h₄ ?_
      rw [hc₄, hc₃, List.append_assoc]
      rfl

/-- With the four bytes that its digits take off the stack, an escape leaves room for what it gives
back. -/
theorem wp_parseUnicodeEscape (h : Tracks input 4 g) :
    wp input parseUnicodeEscape (fun _ => Past input g.consumed.length) g := by
  refine Calls.wp_bind.mpr (wp_readHex 4 [] 0 h (by decide) fun digits v g₁ hlen h₁ hc₁ => ?_)
  have hle : g.consumed.length ≤ g₁.consumed.length := by
    rw [hc₁, List.length_append]
    exact Nat.le_add_right _ _
  dsimp only
  split
  · exact Calls.wp_mono (wp_parseLowSurrogate v h₁) fun _ _ hpast =>
      ⟨hpast.1, Nat.le_trans hle hpast.2⟩
  · split
    · exact ⟨h₁.mono (by decide), hle⟩
    · exact wp_out h₁ (by decide) _ fun g₂ h₂ hc₂ => ⟨h₂.mono (by decide), by rw [hc₂]; exact hle⟩

theorem wp_emitEscape (c : UInt8) (h : Tracks input 4 g) :
    wp input (emitEscape c) (fun _ => Past input g.consumed.length) g := by
  have hout (c : LineBuf.Cmd) : wp input (out c) (fun _ => Past input g.consumed.length) g :=
    wp_out h (by decide) c fun g' h' hc' => ⟨h'.mono (by decide), by rw [hc']⟩
  have hpure : wp input (pure ()) (fun _ => Past input g.consumed.length) g :=
    ⟨h.mono (by decide), Nat.le_refl _⟩
  have hescape := wp_parseUnicodeEscape h
  unfold emitEscape
  split_ifs
  all_goals first | exact hout _ | exact hpure | exact hescape

/-! ## 4. The loop over a string -/

theorem wp_emitContinuation (n : Nat) (h : Tracks input 6 g) :
    wp input (emitContinuation n) (fun _ => Past input g.consumed.length) g := by
  induction n generalizing g with
  | zero => exact ⟨h, Nat.le_refl _⟩
  | succ n ih =>
    refine Calls.wp_bind.mpr (wp_rdGet h (Nat.le_refl 6) (fun g₁ _ h₁ => h₁)
      fun c g₁ _ h₁ hc₁ => ?_)
    refine Calls.wp_bind.mpr (wp_out h₁ (by decide) _ fun g₂ h₂ hc₂ => ?_)
    refine Calls.wp_mono (ih (h₂.mono (by decide))) fun _ _ hpast => ⟨hpast.1, ?_⟩
    rw [hc₂, hc₁, List.length_append] at hpast
    exact Nat.le_trans (Nat.le_add_right _ _) hpast.2

/-- A turn that goes on has consumed at least one byte for good. -/
theorem wp_emitTurn (h : Tracks input 6 g) :
    wp input emitTurn (fun more g' => Tracks input 6 g' ∧
      (more = true → g.consumed.length < g'.consumed.length)) g := by
  refine Calls.wp_bind.mpr (wp_rdGet h (Nat.le_refl 6) (fun g₁ _ h₁ => h₁)
    fun c g₁ _ h₁ hc₁ => ?_)
  have hlt : g.consumed.length < g₁.consumed.length := by
    rw [hc₁, List.length_append]
    exact Nat.lt_succ_self _
  -- what a turn does behind the byte read does not go back behind it
  have hthen {m : Parse Unit} (hm : wp input m (fun _ => Past input g₁.consumed.length) g₁) :
      wp input (do m; pure true) (fun more g' => Tracks input 6 g' ∧
        (more = true → g.consumed.length < g'.consumed.length)) g₁ :=
    Calls.wp_bind.mpr (Calls.wp_mono hm fun _ _ hpast =>
      ⟨hpast.1, fun _ => Nat.lt_of_lt_of_le hlt hpast.2⟩)
  have hout (c : LineBuf.Cmd) : wp input (out c) (fun _ => Past input g₁.consumed.length) g₁ :=
    wp_out h₁ (by decide) c fun g' h' hc' => ⟨h'.mono (by decide), by rw [hc']⟩
  dsimp only
  split
  · exact ⟨h₁.mono (by decide), nofun⟩
  · split
    · refine Calls.wp_bind.mpr (wp_rdGet h₁ (by decide) (fun g₂ _ h₂ => h₂)
        fun e g₂ _ h₂ hc₂ => ?_)
      refine Calls.wp_bind.mpr (Calls.wp_mono (wp_emitEscape e h₂) fun _ g₃ hpast =>
        ⟨hpast.1, fun _ => Nat.lt_of_lt_of_le hlt (Nat.le_trans ?_ hpast.2)⟩)
      rw [hc₂, List.length_append]
      exact Nat.le_add_right _ _
    · split
      · exact hthen (hout _)
      · split
        · exact hthen (hout _)
        · refine Calls.wp_bind.mpr (wp_out h₁ (by decide) _ fun g₂ h₂ hc₂ => ?_)
          refine Calls.wp_bind.mpr (Calls.wp_mono
            (wp_emitContinuation _ (h₂.mono (by decide))) fun _ _ hpast =>
              ⟨hpast.1, fun _ => Nat.lt_of_lt_of_le hlt ?_⟩)
          rw [← hc₂]
          exact hpast.2

end

/-! ## 5. The other functions -/

/-- A function of the parse keeps the invariant. -/
abbrev Keeps {α : Type} (input : List UInt8) (m : Parse α) : Prop :=
  Calls.Keeps Ghost.exec (Safe input) (Tracks input 6) m

section
variable {input : List UInt8}

theorem keeps_rdGet : Keeps input rdGet := fun _ h =>
  wp_rdGet h (Nat.le_refl 6) (fun _ _ h' => h') fun _ _ _ h' _ => h'.mono (by decide)

theorem keeps_rdPeek : Keeps input rdPeek := fun _ h =>
  wp_rdPeek h (Nat.le_refl 6) fun _ h' _ => h'

theorem keeps_out (c : LineBuf.Cmd) : Keeps input (out c) := fun _ h =>
  wp_out h (Nat.le_refl 6) c fun _ h' _ => h'

theorem keeps_size : Keeps input size := fun _ h => ⟨h.safe (Nat.le_refl 6) _, h⟩

theorem keeps_enter : Keeps input enter := fun _ h =>
  ⟨h.safe (Nat.le_refl 6) _, h.pb, h.split⟩

theorem keeps_leave : Keeps input leave := fun _ h =>
  ⟨h.safe (Nat.le_refl 6) _, h.pb, h.split⟩

theorem keeps_skipWsLoop (n : Nat) : Keeps input (skipWsLoop n) := by
  induction n with
  | zero => exact .bound
  | succ n ih =>
    refine .bind keeps_rdPeek fun c => ?_
    cases c with
    | none => exact .pure ()
    | some c => exact .ite (.bind keeps_rdGet fun _ => ih) (.pure ())

theorem keeps_skipWs : Keeps input skipWs := .bind keeps_size fun _ => keeps_skipWsLoop _

theorem keeps_matchLit (lit : List UInt8) : Keeps input (matchLit lit) := by
  induction lit with
  | nil =>
    refine .bind keeps_rdPeek fun c => ?_
    cases c with
    | none => exact .pure true
    | some c => exact .pure _
  | cons s lit ih =>
    exact .bind keeps_rdPeek fun _ => .ite (.bind keeps_rdGet fun _ => ih) (.pure false)

theorem keeps_emitLoop (n : Nat) : Keeps input (emitLoop n) := by
  induction n with
  | zero => exact .bound
  | succ n ih =>
    refine .bind (fun g h => Calls.wp_mono (wp_emitTurn h) fun _ _ hturn => hturn.1) fun more => ?_
    exact .ite ih (.pure ())

theorem keeps_emitJsonString : Keeps input emitJsonString :=
  .bind keeps_rdGet fun _ => .ite .fail <| .bind keeps_size fun _ => keeps_emitLoop _

theorem keeps_parseNumberLoop (n : Nat) : Keeps input (parseNumberLoop n) := by
  induction n with
  | zero => exact .bound
  | succ n ih =>
    refine .bind keeps_rdPeek fun c => ?_
    cases c with
    | none => exact .pure ()
    | some c =>
      exact .ite (.bind keeps_rdGet fun _ => .bind (keeps_out _) fun _ => ih) (.pure ())

theorem keeps_parseNumber : Keeps input parseNumber :=
  .bind keeps_size fun _ => keeps_parseNumberLoop _

theorem keeps_parseLit (s : List UInt8) : Keeps input (parseLit s) :=
  .bind (keeps_matchLit s) fun _ => .ite (keeps_out _) .fail

/-- The functions of the recursion, for one bound. -/
structure RecursionKeeps (input : List UInt8) (fuel : Nat) : Prop where
  value : ∀ depth, Keeps input (parseValue fuel depth)
  object : ∀ depth, Keeps input (parseObject fuel depth)
  members : ∀ depth, Keeps input (parseMembers fuel depth)
  array : ∀ depth, Keeps input (parseArray fuel depth)
  elements : ∀ depth, Keeps input (parseElements fuel depth)

section
variable {fuel : Nat} (ih : RecursionKeeps input fuel) (depth : Nat)
include ih

theorem keeps_parseValue : Keeps input (parseValue (fuel + 1) depth) := by
  refine .bind keeps_skipWs fun _ => .bind keeps_rdPeek fun c => ?_
  cases c with
  | none => exact .fail
  | some c =>
    exact .ite (ih.object depth) <| .ite (ih.array depth) <| .ite keeps_emitJsonString <|
      .ite (keeps_parseLit _) <| .ite (keeps_parseLit _) <| .ite (keeps_parseLit _) <|
      .ite keeps_parseNumber .fail

theorem keeps_parseObject : Keeps input (parseObject (fuel + 1) depth) :=
  .ite .fail <| .bind keeps_enter fun _ => .bind keeps_rdGet fun _ => .bind keeps_skipWs fun _ =>
    .bind keeps_rdPeek fun _ => .ite (.bind keeps_rdGet fun _ => keeps_leave) (ih.members depth)

theorem keeps_nested (c : Option UInt8) :
    Keeps input (if c = some lbrace ∨ c = some lbracket then do
        out .flush
        parseValue fuel (depth + 1)
      else do
        parseValue fuel depth
        out .flush) :=
  .ite (.bind (keeps_out _) fun _ => ih.value (depth + 1))
    (.bind (ih.value depth) fun _ => keeps_out _)

theorem keeps_parseMembers : Keeps input (parseMembers (fuel + 1) depth) :=
  .bind keeps_skipWs fun _ => .bind keeps_rdPeek fun _ => .ite .fail <|
    .bind (keeps_out _) fun _ => .bind keeps_emitJsonString fun _ => .bind keeps_skipWs fun _ =>
    .bind keeps_rdPeek fun _ => .ite .fail <|
    .bind keeps_rdGet fun _ => .bind keeps_skipWs fun _ => .bind (keeps_out _) fun _ =>
    .bind keeps_rdPeek fun c => .bind (keeps_nested ih depth c) fun _ => .bind keeps_skipWs fun _ =>
    .bind keeps_rdPeek fun _ => .ite (.bind keeps_rdGet fun _ => ih.members depth) <|
    .bind keeps_skipWs fun _ => .bind keeps_rdPeek fun _ => .ite .fail <|
    .bind keeps_rdGet fun _ => keeps_leave

theorem keeps_parseArray : Keeps input (parseArray (fuel + 1) depth) :=
  .ite .fail <| .bind keeps_enter fun _ => .bind keeps_rdGet fun _ => .bind keeps_skipWs fun _ =>
    .bind keeps_rdPeek fun _ => .ite (.bind keeps_rdGet fun _ => keeps_leave) (ih.elements depth)

theorem keeps_parseElements : Keeps input (parseElements (fuel + 1) depth) :=
  .bind (keeps_out _) fun _ => .bind (keeps_out _) fun _ =>
    .bind keeps_rdPeek fun c => .bind (keeps_nested ih depth c) fun _ => .bind keeps_skipWs fun _ =>
    .bind keeps_rdPeek fun _ => .ite (.bind keeps_rdGet fun _ => ih.elements depth) <|
    .bind keeps_skipWs fun _ => .bind keeps_rdPeek fun _ => .ite .fail <|
    .bind keeps_rdGet fun _ => keeps_leave

end

theorem recursion_keeps (fuel : Nat) : RecursionKeeps input fuel := by
  induction fuel with
  | zero => exact ⟨fun _ => .bound, fun _ => .bound, fun _ => .bound, fun _ => .bound,
      fun _ => .bound⟩
  | succ fuel ih => exact ⟨keeps_parseValue ih, keeps_parseObject ih, keeps_parseMembers ih,
      keeps_parseArray ih, keeps_parseElements ih⟩

theorem keeps_main (fuel : Nat) : Keeps input (main fuel) :=
  .bind keeps_skipWs fun _ => .bind keeps_rdPeek fun _ => .ite (.pure _) <|
    .bind ((recursion_keeps fuel).value 0) fun _ => .bind keeps_skipWs fun _ =>
    .bind keeps_rdPeek fun _ => .ite (.pure _) (.pure _)

end

/-! ## 6. The whole parse -/

/-- The run that keeps track of what is consumed is the run of the program. -/
theorem exec_eq (m : Parse Verdict) (g : Ghost) :
    Calls.denote Op.exec m g.st = (Calls.denote Ghost.exec m g).map fun r => (r.1, r.2.st) :=
  Calls.denote_forget (fun _ _ => rfl) m g

/-- Every parse ends, and at each of its calls the stack holds at most six bytes, the bytes
consumed, pushed back and unread are the input, and a turn of the loop over a string that goes on
leaves fewer bytes than it found. -/
theorem main_tracks (input : List UInt8) :
    ∃ r g,
      Calls.denote Ghost.exec (main (Stream.callBound input)) (.start input) = some (r, g) ∧
      Stream.run input = some (report (r, g.st)) ∧ Tracks input 6 g ∧
      ∀ p ∈ Calls.points Ghost.exec (main (Stream.callBound input)) (.start input),
        p.2.st.rd.pb.length ≤ 6 ∧ 6 < rdPb ∧
        p.2.consumed ++ (p.2.st.rd.pb ++ p.2.st.rd.input) = input ∧
        ((p.1 = .peek ∨ ∃ c, p.1 = .unget c) → p.2.st.rd.pb.length < rdPb) ∧
        ∀ g', Calls.denote Ghost.exec emitTurn p.2 = some (some true, g') → g'.left < p.2.left := by
  have hstart : Tracks input 6 (.start input) := ⟨Nat.zero_le _, rfl⟩
  obtain ⟨hpoints, herror, hvalue⟩ :=
    Calls.wp_sound (keeps_main (Stream.callBound input) _ hstart)
  have hrun := run_eq_report input
  rw [show Stream.St.start input = (Ghost.start input).st from rfl, exec_eq] at hrun
  cases hend : Calls.denote Ghost.exec (main (Stream.callBound input)) (.start input) with
  | none =>
    rw [hend] at hrun
    obtain ⟨r, st, htrace⟩ := Trace.exists_run input
    obtain ⟨e, hmain, -⟩ := Stream.main_outcome htrace
    rw [Stream.main, hrun] at hmain
    cases hmain
  | some x =>
    obtain ⟨r, g⟩ := x
    rw [hend] at hrun
    refine ⟨r, g, rfl, hrun, ?_, fun p hp => ?_⟩
    · cases r with
      | none => exact herror g hend
      | some v => exact hvalue v g hend
    · obtain ⟨htracks, hroom⟩ := hpoints p hp
      refine ⟨htracks.pb, by decide, htracks.split, hroom, fun g' hturn => ?_⟩
      obtain ⟨htracks', hlt⟩ := (Calls.wp_sound (wp_emitTurn htracks)).2.2 true g' hturn
      have hle := hlt rfl
      have hleft := htracks.left_eq
      have hleft' := htracks'.left_eq
      omega

end Parse

end J2t
