import ZteWifi.J2t.Trace

/-!
# The grammar of the converter's input

Concrete syntax trees of the lenient JSON that the converter reads: a tree is a derivation, its
`bytes` are the text derived.  The trees carry everything the output depends on, so `cmds` says what
a run puts on the line buffer, `nest` how many containers are open at once, and `weight` how much of
the depth argument is used up, which is less than `nest` where an element is looked at too early.
-/

open Ascii LineBuf

namespace J2t

/-! ## 1. Tokens -/

/-- A run of white space. -/
structure Ws where
  bytes : List UInt8
  space : bytes.all isspace = true

def Ws.none : Ws := ⟨[], rfl⟩

/-- One character or escape of a string. -/
inductive Item
  | escape (c : UInt8) (h : c ≠ 0x75)
  | unicode (digits : List UInt8)
      (h : digits.length = 4 ∧ digits.all fun c => (hexDigit c).isSome)
  | ascii (c : UInt8) (h : c < 0x80 ∧ c ≠ quote ∧ c ≠ backslash)
  | multi (c : UInt8) (cont : List UInt8) (h : ¬ c < 0x80 ∧ cont.length = utf8CharLen c - 1)

namespace Item

def bytes : Item → List UInt8
  | escape c _ => [backslash, c]
  | unicode digits _ => backslash :: 0x75 :: digits
  | ascii c _ => [c]
  | multi c cont _ => c :: cont

end Item

/-- The number that hex digits stand for. -/
def hexValue (digits : List UInt8) : Nat :=
  digits.foldl (fun v c => v * 16 + (hexDigit c).getD 0) 0

/-- A string between its quotes. -/
abbrev Str := List Item

namespace Str

def bytes (s : Str) : List UInt8 := quote :: (s.flatMap Item.bytes ++ [quote])

/-- What the string puts on the line.  After a high surrogate the low one, if there is one, has
already been taken. -/
def cmdsAfter (pending : Option Nat) : Str → List Cmd
  | [] => []
  | .escape c _ :: s => Trace.escapeCmds c ++ cmdsAfter none s
  | .ascii c _ :: s => (if c < 0x20 then .space else .byte c) :: cmdsAfter none s
  | .multi c cont _ :: s => Trace.charCmds c cont ++ cmdsAfter none s
  | .unicode digits _ :: s =>
    let v := hexValue digits
    if Trace.isHighSurrogate v then cmdsAfter (some v) s
    else if Trace.isLowSurrogate v then
      match pending with
      | some hi => .utf8 (surrogatePair hi v) :: cmdsAfter none s
      | none => cmdsAfter none s
    else .utf8 v :: cmdsAfter none s

def cmds (s : Str) : List Cmd := cmdsAfter none s

end Str

inductive Literal
  | true | false | null

def Literal.bytes : Literal → List UInt8
  | .true => Ascii.bytes "true"
  | .false => Ascii.bytes "false"
  | .null => Ascii.bytes "null"

structure Number where
  first : UInt8
  rest : List UInt8
  start : isdigit first = true ∨ first = minus
  chars : rest.all isNumChar = true

def Number.bytes (n : Number) : List UInt8 := n.first :: n.rest

theorem isNumChar_of_start : ∀ c : UInt8, isdigit c = true ∨ c = minus → isNumChar c = true := by
  decide +kernel

theorem Number.isNumChar_of_mem (n : Number) : ∀ c ∈ n.bytes, isNumChar c = true := by
  intro c hc
  rcases List.mem_cons.mp hc with rfl | hc
  · exact isNumChar_of_start _ n.start
  · exact List.all_eq_true.mp n.chars c hc

/-! ## 2. Trees -/

/-- The key of a member with the white space around it and behind the colon. -/
structure Key where
  before : Ws
  name : Str
  after : Ws
  gap : Ws

def Key.bytes (k : Key) : List UInt8 :=
  k.before.bytes ++ (k.name.bytes ++ (k.after.bytes ++ colon :: k.gap.bytes))

/-- What a tree derives: a value, or the members or elements of a container with its closing
bracket. -/
inductive Part
  | value | members | elements

/-- How many containers are closed behind the tree that were opened before it. -/
def Part.closes : Part → Nat
  | .value => 0
  | .members | .elements => 1

inductive Cst : Part → Type
  | emptyObject (w : Ws) : Cst .value
  | object (ms : Cst .members) : Cst .value
  | emptyArray (w : Ws) : Cst .value
  | array (w : Ws) (es : Cst .elements) : Cst .value
  | string (s : Str) : Cst .value
  | literal (l : Literal) : Cst .value
  | number (n : Number) : Cst .value
  | lastMember (k : Key) (v : Cst .value) (w : Ws) : Cst .members
  | member (k : Key) (v : Cst .value) (w : Ws) (ms : Cst .members) : Cst .members
  | lastElement (v : Cst .value) (w : Ws) : Cst .elements
  | element (v : Cst .value) (w : Ws) (gap : Ws) (es : Cst .elements) : Cst .elements

namespace Cst

variable {p : Part}

def bytes {p : Part} : Cst p → List UInt8
  | emptyObject w => lbrace :: (w.bytes ++ [rbrace])
  | object ms => lbrace :: ms.bytes
  | emptyArray w => lbracket :: (w.bytes ++ [rbracket])
  | array w es => lbracket :: (w.bytes ++ es.bytes)
  | string s => s.bytes
  | literal l => l.bytes
  | number n => n.bytes
  | lastMember k v w => k.bytes ++ (v.bytes ++ (w.bytes ++ [rbrace]))
  | member k v w ms => k.bytes ++ (v.bytes ++ (w.bytes ++ comma :: ms.bytes))
  | lastElement v w => v.bytes ++ (w.bytes ++ [rbracket])
  | element v w gap es => v.bytes ++ (w.bytes ++ comma :: (gap.bytes ++ es.bytes))

def isContainer {p : Part} : Cst p → Bool
  | emptyObject _ | object _ | emptyArray _ | array _ _ => true
  | _ => false

/-- How many containers are open at once. -/
def nest {p : Part} : Cst p → Nat
  | emptyObject _ | emptyArray _ => 1
  | object ms => ms.nest + 1
  | array _ es => es.nest + 1
  | string _ | literal _ | number _ => 0
  | lastMember _ v _ => v.nest
  | member _ v _ ms => max v.nest ms.nest
  | lastElement v _ => v.nest
  | element v _ _ es => max v.nest es.nest

/-- What the value of a member or an element needs of the depth its container has.  With white
space before it (`slip`) an element is not seen to be a container, and is read at the container's
own depth. -/
def childWeight (slip : Bool) (weight : Nat) : Nat := if slip then weight else weight + 1

/-- How many levels of the depth argument a tree takes. -/
def weight {p : Part} (slip : Bool) : Cst p → Nat
  | emptyObject _ | emptyArray _ => 1
  | object ms => ms.weight false
  | array _ es => max 1 (es.weight false)
  | string _ | literal _ | number _ => 0
  | lastMember _ v _ => childWeight false (v.weight false)
  | member _ v _ ms => max (childWeight false (v.weight false)) (ms.weight false)
  | lastElement v _ => childWeight slip (v.weight false)
  | element v _ gap es =>
    max (childWeight slip (v.weight false)) (es.weight (!gap.bytes.isEmpty))

/-- The commands of a member's or an element's value, from those it has at each depth. -/
def childCmds (deeper : Bool) (depth : Nat) (cmds : Nat → List Cmd) : List Cmd :=
  if deeper then .flush :: cmds (depth + 1) else cmds depth ++ [.flush]

def cmds {p : Part} (slip : Bool) : Cst p → Nat → List Cmd
  | emptyObject _, _ | emptyArray _, _ => []
  | object ms, depth => ms.cmds false depth
  | array _ es, depth => es.cmds false depth
  | string s, _ => s.cmds
  | literal l, _ => [.str l.bytes]
  | number n, _ => n.bytes.map .byte
  | lastMember k v _, depth =>
    .indent depth :: (k.name.cmds ++ .str (Ascii.bytes ": ") ::
      childCmds v.isContainer depth (v.cmds false))
  | member k v _ ms, depth =>
    .indent depth :: (k.name.cmds ++ .str (Ascii.bytes ": ") ::
      (childCmds v.isContainer depth (v.cmds false) ++ ms.cmds false depth))
  | lastElement v _, depth =>
    .indent depth :: .str (Ascii.bytes "- ") ::
      childCmds (v.isContainer && !slip) depth (v.cmds false)
  | element v _ gap es, depth =>
    .indent depth :: .str (Ascii.bytes "- ") ::
      (childCmds (v.isContainer && !slip) depth (v.cmds false) ++
        es.cmds (!gap.bytes.isEmpty) depth)

theorem start_of_number : ∀ c : UInt8, isdigit c = true ∨ c = minus →
    isspace c = false ∧ c ≠ lbrace ∧ c ≠ lbracket ∧ c ≠ rbracket ∧ c ≠ quote ∧ c ≠ 0x74 ∧
      c ≠ 0x66 ∧ c ≠ 0x6E := by
  decide +kernel

/-- The first byte of a value tells a container. -/
theorem exists_bytes_eq_cons (v : Cst .value) : ∃ c s, v.bytes = c :: s ∧ isspace c = false ∧
    c ≠ rbracket ∧ (v.isContainer = true ↔ c = lbrace ∨ c = lbracket) := by
  cases v with
  | emptyObject | object | emptyArray | array =>
    exact ⟨_, _, rfl, by decide, by decide, iff_of_true rfl (by decide)⟩
  | string => exact ⟨_, _, rfl, by decide, by decide, iff_of_false nofun (by decide)⟩
  | literal l =>
    cases l <;> exact ⟨_, _, rfl, by decide, by decide, iff_of_false nofun (by decide)⟩
  | number n =>
    obtain ⟨hsp, hobj, harr, hend, -⟩ := start_of_number n.first n.start
    exact ⟨_, _, rfl, hsp, hend, by simp [isContainer, hobj, harr]⟩

theorem exists_members_bytes (ms : Cst .members) :
    ∃ (w : Ws) (s : List UInt8), ms.bytes = w.bytes ++ quote :: s := by
  cases ms with
  | lastMember key | member key =>
    simp only [bytes, Key.bytes, Str.bytes, List.append_assoc, List.cons_append]
    exact ⟨key.before, _, rfl⟩

theorem exists_elements_bytes (es : Cst .elements) :
    ∃ c s, es.bytes = c :: s ∧ isspace c = false ∧ c ≠ rbracket := by
  cases es with
  | lastElement v | element v =>
    obtain ⟨c, s, hv, hsp, hend, -⟩ := v.exists_bytes_eq_cons
    exact ⟨c, _, by rw [bytes, hv]; rfl, hsp, hend⟩

theorem weight_members_pos (slip : Bool) (ms : Cst .members) : 1 ≤ ms.weight slip := by
  cases ms with
  | lastMember k v w => exact Nat.le_add_left _ _
  | member k v w ms => exact Nat.le_trans (Nat.le_add_left _ _) (Nat.le_max_left _ _)

theorem weight_scalar {v : Cst .value} (h : v.isContainer = false) : v.weight false = 0 := by
  cases v with
  | emptyObject | emptyArray | object | array => cases h
  | string | literal | number => rfl

theorem weight_value (slip : Bool) (v : Cst .value) : v.weight slip = v.weight false := by
  cases v <;> rfl

theorem cmds_value (slip : Bool) (v : Cst .value) (depth : Nat) :
    v.cmds slip depth = v.cmds false depth := by
  cases v <;> rfl

/-- How deep the recursion of the parser goes. -/
def calls {p : Part} : Cst p → Nat
  | emptyObject _ | emptyArray _ => 2
  | object ms => ms.calls + 2
  | array _ es => es.calls + 2
  | string _ | literal _ | number _ => 1
  | lastMember _ v _ => v.calls + 1
  | member _ v _ ms => max v.calls ms.calls + 1
  | lastElement v _ => v.calls + 1
  | element v _ _ es => max v.calls es.calls + 1

theorem calls_le {p : Part} (t : Cst p) : t.calls ≤ 3 * t.bytes.length := by
  induction t with
  | emptyObject | emptyArray | string | number =>
    simp only [calls, bytes, Str.bytes, Number.bytes, List.length_cons, List.length_append,
      List.length_nil]
    omega
  | literal l => cases l <;> decide
  | object | array | lastMember | lastElement =>
    simp only [calls, bytes, List.length_cons, List.length_append, List.length_nil] at *
    omega
  | member | element =>
    simp only [calls, bytes, List.length_cons, List.length_append] at *
    omega

theorem childWeight_le (slip : Bool) (weight : Nat) : childWeight slip weight ≤ weight + 1 := by
  cases slip
  · exact Nat.le_refl _
  · exact Nat.le_succ _

/-- Only an element read at its container's own depth makes a tree weigh less than it nests. -/
theorem weight_le_nest {p : Part} (t : Cst p) (slip : Bool) :
    t.weight slip ≤ t.nest + p.closes := by
  induction t generalizing slip with
  | emptyObject | emptyArray | string | literal | number => exact Nat.le_refl _
  | object ms ih => exact ih false
  | array w es ih => exact Nat.max_le.mpr ⟨Nat.le_add_left _ _, ih false⟩
  | lastMember k v w ih =>
    exact Nat.le_trans (childWeight_le _ _) (Nat.add_le_add_right (ih false) 1)
  | lastElement v w ih =>
    exact Nat.le_trans (childWeight_le _ _) (Nat.add_le_add_right (ih false) 1)
  | member k v w ms ihv ihms =>
    have hv := Nat.le_trans (childWeight_le false _) (Nat.add_le_add_right (ihv false) 1)
    have hms := ihms false
    simp only [weight, nest, Part.closes] at *
    omega
  | element v w gap es ihv ihes =>
    have hv := Nat.le_trans (childWeight_le slip _) (Nat.add_le_add_right (ihv false) 1)
    have hes := ihes (!gap.bytes.isEmpty)
    simp only [weight, nest, Part.closes] at *
    omega

end Cst

/-- A whole text. -/
structure Text where
  before : Ws
  value : Cst .value
  after : Ws

def Text.bytes (t : Text) : List UInt8 := t.before.bytes ++ (t.value.bytes ++ t.after.bytes)

def Text.nest (t : Text) : Nat := t.value.nest

end J2t
