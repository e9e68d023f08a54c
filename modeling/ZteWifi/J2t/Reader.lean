import ZteWifi.Text.Ascii

/-!
# The pushback reader of `j2t.c`

`rd_get`, `rd_peek` and `rd_unget` read a stream one byte at a time through a stack of `RD_PB`
pushed-back bytes.  `Reader.content` is the input still to be read: the stack, top first, and then
what `fgetc` has not delivered.
-/

namespace J2t

/-- `RD_PB` -/
@[simp] abbrev rdPb : Nat := 8

/-- The statics `rd_pb[0 .. rd_pb_n)`, top of the stack first, and `rd_pos`, with the part of the
stream that `fgetc` has yet to return.  `EOF` is `none`. -/
structure Reader where
  pb : List UInt8
  pos : Nat
  input : List UInt8
  deriving DecidableEq, Repr

namespace Reader

def rdGet (r : Reader) : Option UInt8 × Reader :=
  match r.pb with
  | c :: pb => (some c, { r with pb := pb })
  | [] =>
    match r.input with
    | c :: input => (some c, { r with pos := r.pos + 1, input := input })
    | [] => (none, r)

def rdUnget (c : Option UInt8) (r : Reader) : Reader :=
  match c with
  | some c => if r.pb.length < rdPb then { r with pb := c :: r.pb } else r
  | none => r

/-- `rd_peek` pushes back what it read under the very test of `rd_unget`. -/
def rdPeek (r : Reader) : Option UInt8 × Reader :=
  let (c, r) := r.rdGet
  (c, r.rdUnget c)

/-- The input still to be read. -/
def content (r : Reader) : List UInt8 := r.pb ++ r.input

/-! ## The three operations on the content -/

theorem rdGet_fst (r : Reader) : r.rdGet.1 = r.content.head? := by
  obtain ⟨pb, pos, input⟩ := r
  cases pb <;> cases input <;> rfl

theorem rdGet_content (r : Reader) : r.rdGet.2.content = r.content.tail := by
  obtain ⟨pb, pos, input⟩ := r
  cases pb <;> cases input <;> rfl

theorem rdGet_pb (r : Reader) : r.rdGet.2.pb = r.pb.tail := by
  obtain ⟨pb, pos, input⟩ := r
  cases pb <;> cases input <;> rfl

theorem rdUnget_pb (c : UInt8) {r : Reader} (h : r.pb.length < rdPb) :
    (r.rdUnget (some c)).pb = c :: r.pb := by
  simp only [rdUnget, if_pos h]

theorem rdUnget_content (c : UInt8) {r : Reader} (h : r.pb.length < rdPb) :
    (r.rdUnget (some c)).content = c :: r.content := by
  simp only [rdUnget, if_pos h, content, List.cons_append]

theorem rdUnget_pb_length (c : Option UInt8) (r : Reader) :
    (r.rdUnget c).pb.length ≤ r.pb.length + 1 := by
  cases c with
  | none => exact Nat.le_succ _
  | some c =>
    by_cases h : r.pb.length < rdPb
    · exact Nat.le_of_eq (congrArg List.length (rdUnget_pb c h))
    · rw [rdUnget, if_neg h]
      exact Nat.le_succ _

theorem rdPeek_fst (r : Reader) : r.rdPeek.1 = r.content.head? := r.rdGet_fst

/-- The byte goes back on a stack from which it came or which is empty, so there is room. -/
theorem rdPeek_content {r : Reader} (h : r.pb.length ≤ rdPb) : r.rdPeek.2.content = r.content := by
  obtain ⟨pb, pos, input⟩ := r
  rcases pb with _ | ⟨c, pb⟩
  · cases input <;> rfl
  · have hlt : pb.length < rdPb := Nat.lt_of_succ_le h
    simp only [rdPeek, rdGet]
    rw [rdUnget_content c hlt]
    rfl

theorem rdPeek_pb_length (r : Reader) : r.rdPeek.2.pb.length ≤ max r.pb.length 1 := by
  have h : (r.rdGet.2.rdUnget r.rdGet.1).pb.length ≤ r.rdGet.2.pb.length + 1 :=
    rdUnget_pb_length _ _
  rw [rdGet_pb, List.length_tail] at h
  change (r.rdGet.2.rdUnget r.rdGet.1).pb.length ≤ _
  omega

end Reader

end J2t
