import ZteWifi.Lib.Calls
import ZteWifi.J2t.Stream

/-!
# The parse as calls

The functions of `j2t.c` once more, as trees of the calls they make: of the reader, of the line
buffer and, to choose a bound, of the number of bytes left.  Under what the calls do to the static
variables each is the program of the same name in `J2t.Stream`.
-/

open Ascii

namespace J2t

/-- The calls of the parse. -/
inductive Op
  | get
  | peek
  | unget (c : Option UInt8)
  | out (c : LineBuf.Cmd)
  | size
  | enter
  | leave
  deriving DecidableEq, Repr

/-- What a call answers. -/
abbrev Op.Ans : Op → Type
  | .get => Option UInt8
  | .peek => Option UInt8
  | .size => Nat
  | _ => Unit

/-- A function of the source as its calls. -/
abbrev Parse := Calls Op Op.Ans

/-- What the calls do to the static variables. -/
def Op.exec : Calls.Handler Op Op.Ans Stream.St
  | .get, st => (st.rd.rdGet.1, { st with rd := st.rd.rdGet.2 })
  | .peek, st => (st.rd.rdPeek.1, { st with rd := st.rd.rdPeek.2 })
  | .unget c, st => ((), { st with rd := st.rd.rdUnget c })
  | .out c, st => ((), { st with out := LineBuf.exec c st.out })
  | .size, st => (Stream.Reader.size st.rd, st)
  | .enter, st => ((), { st with active := st.active + 1, peak := max st.peak (st.active + 1) })
  | .leave, st => ((), { st with active := st.active - 1 })

namespace Parse

def rdGet : Parse (Option UInt8) := Calls.perform Op.get

def rdPeek : Parse (Option UInt8) := Calls.perform Op.peek

def rdUnget (c : Option UInt8) : Parse Unit := Calls.perform (Op.unget c)

def out (c : LineBuf.Cmd) : Parse Unit := Calls.perform (Op.out c)

def size : Parse Nat := Calls.perform Op.size

def enter : Parse Unit := Calls.perform Op.enter

def leave : Parse Unit := Calls.perform Op.leave

/-! ## 1. Lexical functions -/

def skipWsLoop : Nat → Parse Unit
  | 0 => .bound
  | n + 1 => do
    let c ← rdPeek
    match c with
    | none => pure ()
    | some c =>
      if isspace c then do
        let _ ← rdGet
        skipWsLoop n
      else pure ()

def skipWs : Parse Unit := do
  let n ← size
  skipWsLoop (n + 1)

def matchLit : List UInt8 → Parse Bool
  | [] => do
    let c ← rdPeek
    match c with
    | none => pure true
    | some c => pure (!isalnum c)
  | s :: lit => do
    let c ← rdPeek
    if c = some s then do
      let _ ← rdGet
      matchLit lit
    else pure false

def readHex : Nat → List UInt8 → Nat → Parse (List UInt8 × Nat)
  | 0, hex, v => pure (hex, v)
  | n + 1, hex, v => do
    let c ← rdGet
    match c with
    | none => .fail
    | some c =>
      match hexDigit c with
      | none => .fail
      | some d => readHex n (hex ++ [c]) (v * 16 + d)

def ungetEscape (hex : List UInt8) : Parse Unit := do
  rdUnget hex[3]?
  rdUnget hex[2]?
  rdUnget hex[1]?
  rdUnget hex[0]?
  rdUnget (some 0x75)
  rdUnget (some backslash)

def readLowSurrogate (v : Nat) : Parse Unit := do
  let (hex, lo) ← readHex 4 [] 0
  if lo < 0xDC00 ∨ 0xDFFF < lo then ungetEscape hex
  else out (.utf8 (surrogatePair v lo))

def parseLowSurrogate (v : Nat) : Parse Unit := do
  let c ← rdPeek
  if c ≠ some backslash then pure ()
  else do
    let _ ← rdGet
    let c ← rdPeek
    if c ≠ some 0x75 then rdUnget (some backslash)
    else do
      let _ ← rdGet
      readLowSurrogate v

def parseUnicodeEscape : Parse Unit := do
  let (_, v) ← readHex 4 [] 0
  if 0xD800 ≤ v ∧ v ≤ 0xDBFF then parseLowSurrogate v
  else if 0xDC00 ≤ v ∧ v ≤ 0xDFFF then pure ()
  else out (.utf8 v)

def emitEscape (c : UInt8) : Parse Unit :=
  if c = quote then out (.byte quote)
  else if c = backslash then out (.byte backslash)
  else if c = slash then out (.byte slash)
  else if c = 0x62 then out (.byte 0x08)
  else if c = 0x66 then out (.byte 0x0C)
  else if c = 0x6E then out .space
  else if c = 0x74 then out .space
  else if c = 0x72 then pure ()
  else if c = 0x75 then parseUnicodeEscape
  else out (.byte c)

def emitContinuation : Nat → Parse Unit
  | 0 => pure ()
  | n + 1 => do
    let cc ← rdGet
    match cc with
    | none => .fail
    | some cc => do
      out (.raw cc)
      emitContinuation n

/-- A time round the loop of `emit_json_string`, and whether it goes on. -/
def emitTurn : Parse Bool := do
  let c ← rdGet
  match c with
  | none => .fail
  | some c =>
    if c = quote then pure false
    else if c = backslash then do
      let e ← rdGet
      match e with
      | none => .fail
      | some e => do
        emitEscape e
        pure true
    else if c < 0x20 then do
      out .space
      pure true
    else if c < 0x80 then do
      out (.byte c)
      pure true
    else do
      out (.lead (utf8CharLen c) c)
      emitContinuation (utf8CharLen c - 1)
      pure true

def emitLoop : Nat → Parse Unit
  | 0 => .bound
  | n + 1 => do
    let more ← emitTurn
    if more then emitLoop n else pure ()

def emitJsonString : Parse Unit := do
  let c ← rdGet
  if c ≠ some quote then .fail
  else do
    let n ← size
    emitLoop (n + 1)

def parseNumberLoop : Nat → Parse Unit
  | 0 => .bound
  | n + 1 => do
    let c ← rdPeek
    match c with
    | none => pure ()
    | some c =>
      if isNumChar c then do
        let _ ← rdGet
        out (.byte c)
        parseNumberLoop n
      else pure ()

def parseNumber : Parse Unit := do
  let n ← size
  parseNumberLoop (n + 1)

def parseLit (s : List UInt8) : Parse Unit := do
  let ok ← matchLit s
  if ok then out (.str s) else .fail

/-! ## 2. The recursive parser -/

mutual

def parseValue : Nat → Nat → Parse Unit
  | 0, _ => .bound
  | fuel + 1, depth => do
    skipWs
    let c ← rdPeek
    match c with
    | none => .fail
    | some c =>
      if c = lbrace then parseObject fuel depth
      else if c = lbracket then parseArray fuel depth
      else if c = quote then emitJsonString
      else if c = 0x74 then parseLit (bytes "true")
      else if c = 0x66 then parseLit (bytes "false")
      else if c = 0x6E then parseLit (bytes "null")
      else if isdigit c ∨ c = minus then parseNumber
      else .fail
termination_by structural fuel => fuel

def parseObject : Nat → Nat → Parse Unit
  | 0, _ => .bound
  | fuel + 1, depth =>
    if depth > maxDepth then .fail
    else do
      enter
      let _ ← rdGet
      skipWs
      let c ← rdPeek
      if c = some rbrace then do
        let _ ← rdGet
        leave
      else parseMembers fuel depth
termination_by structural fuel => fuel

def parseMembers : Nat → Nat → Parse Unit
  | 0, _ => .bound
  | fuel + 1, depth => do
    skipWs
    let c ← rdPeek
    if c ≠ some quote then .fail
    else do
      out (.indent depth)
      emitJsonString
      skipWs
      let c ← rdPeek
      if c ≠ some colon then .fail
      else do
        let _ ← rdGet
        skipWs
        out (.str (bytes ": "))
        let c ← rdPeek
        (if c = some lbrace ∨ c = some lbracket then do
          out .flush
          parseValue fuel (depth + 1)
        else do
          parseValue fuel depth
          out .flush)
        skipWs
        let c ← rdPeek
        if c = some comma then do
          let _ ← rdGet
          parseMembers fuel depth
        else do
          skipWs
          let c ← rdPeek
          if c ≠ some rbrace then .fail
          else do
            let _ ← rdGet
            leave
termination_by structural fuel => fuel

def parseArray : Nat → Nat → Parse Unit
  | 0, _ => .bound
  | fuel + 1, depth =>
    if depth > maxDepth then .fail
    else do
      enter
      let _ ← rdGet
      skipWs
      let c ← rdPeek
      if c = some rbracket then do
        let _ ← rdGet
        leave
      else parseElements fuel depth
termination_by structural fuel => fuel

def parseElements : Nat → Nat → Parse Unit
  | 0, _ => .bound
  | fuel + 1, depth => do
    out (.indent depth)
    out (.str (bytes "- "))
    let c ← rdPeek
    (if c = some lbrace ∨ c = some lbracket then do
      out .flush
      parseValue fuel (depth + 1)
    else do
      parseValue fuel depth
      out .flush)
    skipWs
    let c ← rdPeek
    if c = some comma then do
      let _ ← rdGet
      parseElements fuel depth
    else do
      skipWs
      let c ← rdPeek
      if c ≠ some rbracket then .fail
      else do
        let _ ← rdGet
        leave
termination_by structural fuel => fuel

end

/-- How `main` ends when the parse does not fail. -/
inductive Verdict
  | empty
  | trailing
  | done
  deriving DecidableEq, Repr

def main (fuel : Nat) : Parse Verdict := do
  skipWs
  let c ← rdPeek
  if c = none then pure .empty
  else do
    parseValue fuel 0
    skipWs
    let c ← rdPeek
    if c ≠ none then pure .trailing else pure .done

/-! ## 3. The programs they are -/

/-- The calls are those of the program. -/
abbrev Is {α : Type} (m : Parse α) (p : Prog Stream.St α) : Prop := Calls.Denotes Op.exec m p

open Calls (Denotes)

theorem rdGet_is : Is rdGet Stream.rdGet := rfl

theorem rdPeek_is : Is rdPeek Stream.rdPeek := rfl

theorem rdUnget_is (c : Option UInt8) : Is (rdUnget c) (Stream.rdUnget c) := rfl

theorem out_is (c : LineBuf.Cmd) : Is (out c) (Stream.out c) := rfl

theorem enter_is : Is enter Stream.enter := rfl

theorem leave_is : Is leave Stream.leave := rfl

/-- A loop that is bounded by the number of bytes left. -/
theorem bounded_is {α : Type} {m : Nat → Parse α} {p : Nat → Prog Stream.St α}
    (h : ∀ n, Is (m n) (p n)) :
    Is (do let n ← size; m (n + 1)) (do let st ← .get; p (Stream.Reader.size st.rd + 1)) := by
  rw [Is, Denotes, Calls.denote_bind]
  funext st
  exact congrFun (h _) st

theorem skipWsLoop_is (n : Nat) : Is (skipWsLoop n) (Stream.skipWsLoop n) := by
  induction n with
  | zero => exact .bound
  | succ n ih =>
    refine .bind rdPeek_is fun c => ?_
    cases c with
    | none => exact .pure ()
    | some c => exact .ite (.bind rdGet_is fun _ => ih) (.pure ())

theorem skipWs_is : Is skipWs Stream.skipWs := bounded_is skipWsLoop_is

theorem matchLit_is (lit : List UInt8) : Is (matchLit lit) (Stream.matchLit lit) := by
  induction lit with
  | nil =>
    refine .bind rdPeek_is fun c => ?_
    cases c with
    | none => exact .pure true
    | some c => exact .pure _
  | cons s lit ih =>
    exact .bind rdPeek_is fun c => .ite (.bind rdGet_is fun _ => ih) (.pure false)

theorem readHex_is (n : Nat) (hex : List UInt8) (v : Nat) :
    Is (readHex n hex v) (Stream.readHex n hex v) := by
  induction n generalizing hex v with
  | zero => exact .pure _
  | succ n ih =>
    refine .bind rdGet_is fun c => ?_
    cases c with
    | none => exact .fail
    | some c =>
      dsimp only
      cases hexDigit c with
      | none => exact .fail
      | some d => exact ih _ _

theorem ungetEscape_is (hex : List UInt8) : Is (ungetEscape hex) (Stream.ungetEscape hex) :=
  .bind (rdUnget_is _) fun _ => .bind (rdUnget_is _) fun _ => .bind (rdUnget_is _) fun _ =>
    .bind (rdUnget_is _) fun _ => .bind (rdUnget_is _) fun _ => rdUnget_is _

theorem readLowSurrogate_is (v : Nat) : Is (readLowSurrogate v) (Stream.readLowSurrogate v) :=
  .bind (readHex_is _ _ _) fun (hex, _) => .ite (ungetEscape_is hex) (out_is _)

theorem parseLowSurrogate_is (v : Nat) : Is (parseLowSurrogate v) (Stream.parseLowSurrogate v) :=
  .bind rdPeek_is fun _ => .ite (.pure ()) <|
    .bind rdGet_is fun _ => .bind rdPeek_is fun _ => .ite (rdUnget_is _) <|
      .bind rdGet_is fun _ => readLowSurrogate_is v

theorem parseUnicodeEscape_is : Is parseUnicodeEscape Stream.parseUnicodeEscape :=
  .bind (readHex_is _ _ _) fun (_, v) => .ite (parseLowSurrogate_is v) (.ite (.pure ()) (out_is _))

theorem emitEscape_is (c : UInt8) : Is (emitEscape c) (Stream.emitEscape c) :=
  .ite (out_is _) <| .ite (out_is _) <| .ite (out_is _) <| .ite (out_is _) <| .ite (out_is _) <|
    .ite (out_is _) <| .ite (out_is _) <| .ite (.pure ()) <| .ite parseUnicodeEscape_is (out_is _)

theorem emitContinuation_is (n : Nat) :
    Is (emitContinuation n) (Stream.emitContinuation n) := by
  induction n with
  | zero => exact .pure ()
  | succ n ih =>
    refine .bind rdGet_is fun cc => ?_
    cases cc with
    | none => exact .fail
    | some cc => exact .bind (out_is _) fun _ => ih

theorem emitLoop_is (n : Nat) : Is (emitLoop n) (Stream.emitLoop n) := by
  induction n with
  | zero => exact .bound
  | succ n ih =>
    -- what follows a turn that goes on is the rest of the loop
    refine .bind_bind rdGet_is fun c => ?_
    cases c with
    | none => exact .fail
    | some c =>
      refine .ite_bind (.pure ()) <| .ite_bind (.bind_bind rdGet_is fun e => ?_) <|
        .ite_bind (.bind_bind (out_is _) fun _ => ih) <|
        .ite_bind (.bind_bind (out_is _) fun _ => ih) <|
        .bind_bind (out_is _) fun _ => .bind_bind (emitContinuation_is _) fun _ => ih
      cases e with
      | none => exact .fail
      | some e => exact .bind_bind (emitEscape_is e) fun _ => ih

theorem emitJsonString_is : Is emitJsonString Stream.emitJsonString :=
  .bind rdGet_is fun _ => .ite .fail (bounded_is emitLoop_is)

theorem parseNumberLoop_is (n : Nat) : Is (parseNumberLoop n) (Stream.parseNumberLoop n) := by
  induction n with
  | zero => exact .bound
  | succ n ih =>
    refine .bind rdPeek_is fun c => ?_
    cases c with
    | none => exact .pure ()
    | some c => exact .ite (.bind rdGet_is fun _ => .bind (out_is _) fun _ => ih) (.pure ())

theorem parseLit_is (s : List UInt8) : Is (parseLit s) (Stream.parseLit s) :=
  .bind (matchLit_is s) fun _ => .ite (out_is _) .fail

/-- The functions of the recursion, for one bound. -/
structure Recursion (fuel : Nat) : Prop where
  value : ∀ depth, Is (parseValue fuel depth) (Stream.parseValue fuel depth)
  object : ∀ depth, Is (parseObject fuel depth) (Stream.parseObject fuel depth)
  members : ∀ depth, Is (parseMembers fuel depth) (Stream.parseMembers fuel depth)
  array : ∀ depth, Is (parseArray fuel depth) (Stream.parseArray fuel depth)
  elements : ∀ depth, Is (parseElements fuel depth) (Stream.parseElements fuel depth)

section
variable {fuel : Nat} (ih : Recursion fuel) (depth : Nat)
include ih

theorem parseValue_is : Is (parseValue (fuel + 1) depth) (Stream.parseValue (fuel + 1) depth) := by
  refine .bind skipWs_is fun _ => .bind rdPeek_is fun c => ?_
  cases c with
  | none => exact .fail
  | some c =>
    exact .ite (ih.object depth) <| .ite (ih.array depth) <| .ite emitJsonString_is <|
      .ite (parseLit_is _) <| .ite (parseLit_is _) <| .ite (parseLit_is _) <|
      .ite (bounded_is parseNumberLoop_is) .fail

theorem parseObject_is :
    Is (parseObject (fuel + 1) depth) (Stream.parseObject (fuel + 1) depth) :=
  .ite .fail <| .bind enter_is fun _ => .bind rdGet_is fun _ => .bind skipWs_is fun _ =>
    .bind rdPeek_is fun _ => .ite (.bind rdGet_is fun _ => leave_is) (ih.members depth)

/-- What follows a member's colon or an element's dash. -/
theorem nested_is (c : Option UInt8) :
    Is (if c = some lbrace ∨ c = some lbracket then do
        out .flush
        parseValue fuel (depth + 1)
      else do
        parseValue fuel depth
        out .flush)
      (if c = some lbrace ∨ c = some lbracket then do
        Stream.out .flush
        Stream.parseValue fuel (depth + 1)
      else do
        Stream.parseValue fuel depth
        Stream.out .flush) :=
  .ite (.bind (out_is _) fun _ => ih.value (depth + 1))
    (.bind (ih.value depth) fun _ => out_is _)

theorem parseMembers_is :
    Is (parseMembers (fuel + 1) depth) (Stream.parseMembers (fuel + 1) depth) :=
  .bind skipWs_is fun _ => .bind rdPeek_is fun _ => .ite .fail <|
    .bind (out_is _) fun _ => .bind emitJsonString_is fun _ => .bind skipWs_is fun _ =>
    .bind rdPeek_is fun _ => .ite .fail <|
    .bind rdGet_is fun _ => .bind skipWs_is fun _ => .bind (out_is _) fun _ =>
    .bind rdPeek_is fun c => .bind (nested_is ih depth c) fun _ => .bind skipWs_is fun _ =>
    .bind rdPeek_is fun _ => .ite (.bind rdGet_is fun _ => ih.members depth) <|
    .bind skipWs_is fun _ => .bind rdPeek_is fun _ => .ite .fail <|
    .bind rdGet_is fun _ => leave_is

theorem parseArray_is :
    Is (parseArray (fuel + 1) depth) (Stream.parseArray (fuel + 1) depth) :=
  .ite .fail <| .bind enter_is fun _ => .bind rdGet_is fun _ => .bind skipWs_is fun _ =>
    .bind rdPeek_is fun _ => .ite (.bind rdGet_is fun _ => leave_is) (ih.elements depth)

theorem parseElements_is :
    Is (parseElements (fuel + 1) depth) (Stream.parseElements (fuel + 1) depth) :=
  .bind (out_is _) fun _ => .bind (out_is _) fun _ =>
    .bind rdPeek_is fun c => .bind (nested_is ih depth c) fun _ => .bind skipWs_is fun _ =>
    .bind rdPeek_is fun _ => .ite (.bind rdGet_is fun _ => ih.elements depth) <|
    .bind skipWs_is fun _ => .bind rdPeek_is fun _ => .ite .fail <|
    .bind rdGet_is fun _ => leave_is

end

theorem recursion_is (fuel : Nat) : Recursion fuel := by
  induction fuel with
  | zero => exact ⟨fun _ => .bound, fun _ => .bound, fun _ => .bound, fun _ => .bound,
      fun _ => .bound⟩
  | succ fuel ih => exact ⟨parseValue_is ih, parseObject_is ih, parseMembers_is ih,
      parseArray_is ih, parseElements_is ih⟩

theorem main_is (fuel : Nat) :
    Is (main fuel) (do
      Stream.skipWs
      let c ← Stream.rdPeek
      if c = none then pure .empty
      else do
        Stream.parseValue fuel 0
        Stream.skipWs
        let c ← Stream.rdPeek
        if c ≠ none then pure .trailing else pure .done) :=
  .bind skipWs_is fun _ => .bind rdPeek_is fun _ => .ite (.pure _) <|
    .bind ((recursion_is fuel).value 0) fun _ => .bind skipWs_is fun _ =>
    .bind rdPeek_is fun _ => .ite (.pure _) (.pure _)

/-! ## 4. The run -/

/-- What `main` reports when the parse has ended. -/
def report : Option Verdict × Stream.St → Exit × Nat
  | (none, st) =>
    (⟨1, st.out.stdout, st.out.truncated,
      "json parse error at byte " ++ toString st.rd.pos ++ "\n"⟩, st.peak)
  | (some .empty, st) => (⟨1, st.out.stdout, st.out.truncated, "empty input\n"⟩, st.peak)
  | (some .trailing, st) =>
    (⟨1, st.out.stdout, st.out.truncated,
      "trailing data at byte " ++ toString st.rd.pos ++ "\n"⟩, st.peak)
  | (some .done, st) =>
    let out := LineBuf.flushLine st.out
    (⟨0, out.stdout, out.truncated, out.truncationWarning⟩, st.peak)

/-- `skip_ws` reports no error. -/
theorem skipWsLoop_returns (n : Nat) (st : Stream.St) {r : Option Unit} {st' : Stream.St}
    (h : Stream.skipWsLoop n st = some (r, st')) : r = some () := by
  induction n generalizing st with
  | zero => cases h
  | succ n ih =>
    rw [Stream.skipWsLoop, Stream.rdPeek, Prog.modifyGet_bind_apply] at h
    cases hc : st.rd.rdPeek.1 with
    | none =>
      rw [hc] at h
      cases h
      rfl
    | some c =>
      simp only [hc] at h
      split at h
      · rw [Stream.rdGet, Prog.modifyGet_bind_apply] at h
        exact ih _ h
      · cases h
        rfl

/-- The calls are those of a run of the program. -/
theorem run_eq_report (input : List UInt8) :
    Stream.run input =
      (Calls.denote Op.exec (main (Stream.callBound input)) (Stream.St.start input)).map report := by
  rw [main_is, Prog.bind_apply, Stream.run]
  cases hskip : Stream.skipWs (Stream.St.start input) with
  | none => rfl
  | some x =>
    obtain ⟨r, st⟩ := x
    obtain rfl := skipWsLoop_returns _ _ hskip
    simp only [Option.bind_eq_bind, Option.bind_some]
    rw [Stream.rdPeek, Prog.modifyGet_bind_apply]
    by_cases hempty : st.rd.rdPeek.1 = none
    · rw [if_pos hempty, if_pos hempty]
      rfl
    · rw [if_neg hempty, if_neg hempty, Prog.bind_apply]
      cases hvalue : Stream.parseValue (Stream.callBound input) 0
          { st with rd := st.rd.rdPeek.2 } with
      | none => rfl
      | some x =>
        obtain ⟨_ | ⟨⟩, st⟩ := x
        · rfl
        · simp only [Option.bind_some]
          rw [Prog.bind_apply]
          cases hskip : Stream.skipWs st with
          | none => rfl
          | some x =>
            obtain ⟨r, st⟩ := x
            obtain rfl := skipWsLoop_returns _ _ hskip
            simp only [Option.bind_some, Prog.modifyGet_bind_apply]
            split <;> rfl

end Parse

end J2t
