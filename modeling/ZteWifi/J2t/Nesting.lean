import ZteWifi.J2t.Calls
import ZteWifi.J2t.Soundness

/-!
# The nesting limit

How many calls of `parse_object` and `parse_array` are active at once is a property of the input:
`Opens` says that reading from its start on opens `n` containers, each with room for its depth.
An array looks at its next element without skipping white space, and then reads a container at its
own depth; so more than 25 containers can be open.
-/

open Ascii LineBuf

namespace J2t

/-! ## 1. Left contexts -/

/-- Where the parser stands: before a value, before the members behind a brace or a comma, or
before the elements behind a bracket or a comma and, if `slip`, white space. -/
inductive Place
  | value | members | elements (slip : Bool)

/-- The depth at which an element's container is read. -/
def elementDepth (slip : Bool) (depth : Nat) : Nat := if slip then depth else depth + 1

/-- The input starts with a part of a derivation that leaves `n` containers open.  The complete
values on the way have room, and so has each of the open containers. -/
inductive Opens : Place → Nat → Nat → List UInt8 → Prop
  | bracket {d : Nat} {b : UInt8} {s : List UInt8} (hd : d ≤ maxDepth)
      (hb : b = lbrace ∨ b = lbracket) : Opens .value d 1 (b :: s)
  | object {d n : Nat} {s : List UInt8} (hd : d ≤ maxDepth) (w : Ws) (h : Opens .members d n s) :
      Opens .value d (n + 1) (lbrace :: (w.bytes ++ s))
  | array {d n : Nat} {s : List UInt8} (hd : d ≤ maxDepth) (w : Ws)
      (h : Opens (.elements false) d n s) : Opens .value d (n + 1) (lbracket :: (w.bytes ++ s))
  | member {d n : Nat} {s : List UInt8} (key : Key) (h : Opens .value (d + 1) n s) :
      Opens .members d n (key.bytes ++ s)
  | nextMember {d n : Nat} {s : List UInt8} (key : Key) (v : Cst .value) (w : Ws)
      (hv : d + Cst.childWeight false (v.weight false) ≤ maxDepth + 1) (h : Opens .members d n s) :
      Opens .members d n (key.bytes ++ (v.bytes ++ (w.bytes ++ comma :: s)))
  | element {d n : Nat} {slip : Bool} {s : List UInt8} (h : Opens .value (elementDepth slip d) n s) :
      Opens (.elements slip) d n s
  | nextElement {d n : Nat} {slip : Bool} {s : List UInt8} (v : Cst .value) (w gap : Ws)
      (hv : d + Cst.childWeight slip (v.weight false) ≤ maxDepth + 1)
      (h : Opens (.elements (!gap.bytes.isEmpty)) d n s) :
      Opens (.elements slip) d n (v.bytes ++ (w.bytes ++ comma :: (gap.bytes ++ s)))

namespace Trace

/-! ## 2. The counters -/

/-- The peak is never lowered. -/
abbrev GrowsPeak {α : Type} (m : Prog St α) : Prop := Prog.Grows St.peak m

theorem tracks_peak (n : Nat) : Tracks fun st => n ≤ st.peak :=
  ⟨fun _ _ _ h => h, fun _ _ _ hpeak h => Nat.le_trans h hpeak, fun _ _ _ h => h⟩

theorem growsPeak_of {α : Type} {m : Prog St α}
    (h : ∀ n, Prog.Preserves (fun st => n ≤ st.peak) m) : GrowsPeak m :=
  fun st r st' hrun => h st.peak st r st' hrun (Nat.le_refl _)

theorem grows_parse (fuel d : Nat) : GrowsPeak (value fuel d) ∧ GrowsPeak (members fuel d) ∧
    GrowsPeak (elements fuel d) :=
  ⟨growsPeak_of fun n => ((tracks_peak n).parse fuel d).1,
    growsPeak_of fun n => ((tracks_peak n).parse fuel d).2.2.1,
    growsPeak_of fun n => ((tracks_peak n).parse fuel d).2.2.2.2⟩

/-! ## 3. What opens is counted -/

/-- A complete child leaves the counters as a run should: as many containers open as before. -/
theorem child_ok_active {fuel d : Nat} {st st' : St} (hd : d ≤ maxDepth)
    (hfuel : 3 * st.rest.length ≤ fuel) (hp : st.active ≤ st.peak) (hk : Follow st'.rest)
    (h : child (value fuel) d st = some (some (), st')) :
    st'.active = st.active ∧ st'.active ≤ st'.peak := by
  obtain ⟨gap, v, hrest, hroom⟩ := child_eq_ok (sound_parse fuel).1 h hd
  have hcalls := v.calls_le
  have hlen := congrArg List.length hrest
  simp only [List.length_append] at hlen
  have hvalue : ReadsValue fuel v st'.rest := (reads_cst v).readsValue (by omega) hk
  have hrun := reads_child hvalue gap d st hroom hrest hp
  rw [h, Option.some.injEq, Prod.mk.injEq] at hrun
  rw [hrun.2]
  simp only [St.after]
  omega

end Trace

/-- The input `r` is at the place, with the text `s` next. -/
def Place.Starts : Place → List UInt8 → List UInt8 → Prop
  | .value, r, s => ∃ w : Ws, r = w.bytes ++ s
  | .members, r, s => r.dropWhile isspace = s.dropWhile isspace
  | .elements slip, r, s => ∃ gap : Ws, r = gap.bytes ++ s ∧ slip = !gap.bytes.isEmpty

def Place.parse : Place → Nat → Nat → Prog Trace.St Unit
  | .value => Trace.value
  | .members => Trace.members
  | .elements _ => Trace.elements

/-- The calls that the parser needs at a place. -/
def Place.extra : Place → Nat
  | .value => 2
  | .members | .elements _ => 3

namespace Opens

theorem exists_bracket {d n : Nat} {s : List UInt8} (h : Opens .value d n s) :
    ∃ b r, s = b :: r ∧ (b = lbrace ∨ b = lbracket) ∧ d ≤ maxDepth := by
  cases h with
  | bracket hd hb => exact ⟨_, _, rfl, hb, hd⟩
  | object hd => exact ⟨_, _, rfl, .inl rfl, hd⟩
  | array hd => exact ⟨_, _, rfl, .inr rfl, hd⟩

theorem exists_quote {d n : Nat} {s : List UInt8} (h : Opens .members d n s) :
    ∃ (w : Ws) (r : List UInt8), s = w.bytes ++ quote :: r := by
  cases h with
  | member key | nextMember key =>
    simp only [Key.bytes, Str.bytes, List.append_assoc, List.cons_append]
    exact ⟨key.before, _, rfl⟩

theorem exists_element {slip : Bool} {d n : Nat} {s : List UInt8}
    (h : Opens (.elements slip) d n s) : ∃ c r, s = c :: r ∧ isspace c = false ∧ c ≠ rbracket := by
  cases h with
  | element h =>
    obtain ⟨b, r, hs, rfl | rfl, -⟩ := h.exists_bracket <;>
      exact ⟨_, r, hs, by decide, by decide⟩
  | nextElement v =>
    obtain ⟨c, cs, hv, hsp, hend, -⟩ := v.exists_bytes_eq_cons
    exact ⟨c, _, by rw [hv]; rfl, hsp, hend⟩

end Opens

namespace Trace

/-- A key takes at least its quotes and the colon. -/
theorem length_of_key {key : Key} {r s : List UInt8}
    (hrest : r.dropWhile isspace = (key.bytes ++ s).dropWhile isspace) :
    s.length + 3 ≤ r.length := by
  have hle := length_dropWhile_le isspace r
  simp only [hrest, Key.bytes, Str.bytes, List.append_assoc, List.cons_append] at hle
  rw [key.before.dropWhile_append_cons _ (by decide)] at hle
  simp only [List.length_cons, List.length_append, List.length_nil] at hle
  omega

/-- The depth at which a bracket is read as an element, or behind a key. -/
theorem elementDepth_eq (gap : Ws) (d : Nat) {b : UInt8} (hb : b = lbrace ∨ b = lbracket)
    (s : List UInt8) :
    (if (gap.bytes ++ b :: s).head? = some lbrace ∨ (gap.bytes ++ b :: s).head? = some lbracket
      then d + 1 else d) = elementDepth (!gap.bytes.isEmpty) d := by
  obtain ⟨_ | ⟨c, cs⟩, hgap⟩ := gap
  · rw [List.nil_append, List.head?_cons, if_pos (by simpa using hb)]
    rfl
  · rw [List.all_cons, Bool.and_eq_true] at hgap
    rw [List.cons_append, List.head?_cons, if_neg]
    · rfl
    · rintro (⟨⟨⟩⟩ | ⟨⟨⟩⟩) <;> exact absurd hgap.1 (by decide)

/-- The value of a child is read first, and the rest does not lower the peak. -/
theorem child_bind_cases {value : Nat → Prog St Unit} {d : Nat} {k : Unit → Prog St Unit}
    {r : Option Unit} {st st' : St} (hk : GrowsPeak (k ()))
    (h : (child value d >>= k) st = some (r, st')) :
    ∃ r₁ st₁ st₂, SameInput st st₁ ∧ st₂.peak ≤ st'.peak ∧
      value (if st.rest.head? = some lbrace ∨ st.rest.head? = some lbracket then d + 1 else d) st₁ =
        some (r₁, st₂) := by
  rcases Prog.bind_cases h with ⟨-, hfail⟩ | ⟨_, st₃, hok, hrest⟩
  · obtain ⟨st₁, st₂, hsame, hsame', hrun⟩ := child_cases hfail
    exact ⟨none, st₁, st₂, hsame, Nat.le_of_eq hsame'.2.2, hrun⟩
  · obtain ⟨st₁, st₂, hsame, hsame', hrun⟩ := child_cases hok
    exact ⟨_, st₁, st₂, hsame, hsame'.2.2 ▸ hk _ _ _ hrest, hrun⟩

theorem grows_after {loop : Prog St Unit} (h : GrowsPeak loop) (b : UInt8) :
    GrowsPeak (do
      skipWs
      let c ← peek
      if c = some comma then do
        next
        loop
      else close b) :=
  growsPeak_of fun n => (tracks_peak n).skipWs.bind fun _ => preserves_peek.bind fun _ =>
    .ite ((tracks_peak n).next.bind fun _ s r s' hrun hs => Nat.le_trans hs (h s r s' hrun))
      ((tracks_peak n).close b)

/-- A run with enough fuel from the place on has at some point `n` more calls active. -/
def Peaks (p : Place) (d n : Nat) (s : List UInt8) : Prop :=
  ∀ {fuel : Nat} {st st' : St} {r : Option Unit}, p.Starts st.rest s →
    3 * st.rest.length + p.extra ≤ fuel → st.active ≤ st.peak →
    p.parse fuel d st = some (r, st') → st.active + n ≤ st'.peak

theorem peaks_bracket {d : Nat} {b : UInt8} {s : List UInt8} (hd : d ≤ maxDepth)
    (hb : b = lbrace ∨ b = lbracket) : Peaks .value d 1 (b :: s) := by
  intro fuel st st' r hrest hfuel hp h
  obtain ⟨w, hrest⟩ := hrest
  obtain ⟨fuel, rfl⟩ := Nat.exists_eq_add_of_le' (Nat.le_trans (Nat.le_add_left 2 _) hfuel)
  have hgrows := grows_parse fuel d
  have hsp : isspace b = false := by rcases hb with rfl | rfl <;> decide
  rw [Place.parse, value_run w hrest hsp] at h
  rcases hb with rfl | rfl
  · rw [if_pos rfl, object, if_neg (Nat.not_lt.mpr hd)] at h
    rcases container_cases h with ⟨hpeak, -⟩ | ⟨st₁, -, -, hpeak, hloop, -⟩
    · simp only at hpeak
      omega
    · have hle := hgrows.2.1 _ _ _ hloop
      simp only at hpeak
      omega
  · rw [if_neg (by decide), if_pos rfl, array, if_neg (Nat.not_lt.mpr hd)] at h
    rcases container_cases h with ⟨hpeak, -⟩ | ⟨st₁, -, -, hpeak, hloop, -⟩
    · simp only at hpeak
      omega
    · have hle := hgrows.2.2 _ _ _ hloop
      simp only at hpeak
      omega

theorem Peaks.object {d n : Nat} {s : List UInt8} (hd : d ≤ maxDepth) (w : Ws)
    (hs : Opens .members d n s) (ih : Peaks .members d n s) :
    Peaks .value d (n + 1) (lbrace :: (w.bytes ++ s)) := by
  intro fuel st st' r hrest hfuel hp h
  obtain ⟨w₀, hrest⟩ := hrest
  obtain ⟨fuel, rfl⟩ := Nat.exists_eq_add_of_le' (Nat.le_trans (Nat.le_add_left 2 _) hfuel)
  obtain ⟨w₁, t, rfl⟩ := hs.exists_quote
  have hlen := congrArg List.length hrest
  have hspace : (w.bytes ++ w₁.bytes).all isspace = true := by
    rw [List.all_append, w.space, w₁.space]
    rfl
  rw [Place.parse, value_run w₀ hrest (by decide), if_pos rfl, Trace.object,
    if_neg (Nat.not_lt.mpr hd), container_run ⟨_, hspace⟩ (c := quote) (s := t)
    (by rw [List.append_assoc]; rfl) (by decide) (by decide)] at h
  simp only [List.length_append, List.length_cons, Place.extra] at hlen hfuel
  have hpeak := @ih _ ⟨quote :: t, st.cmds, st.active + 1, max st.peak (st.active + 1)⟩ _ _
    (w₁.dropWhile_append_cons t (by decide)).symm
    (by simp only [List.length_cons, Place.extra]; omega) (Nat.le_max_right _ _) h
  simp only at hpeak
  omega

theorem Peaks.array {d n : Nat} {s : List UInt8} (hd : d ≤ maxDepth) (w : Ws)
    (hs : Opens (.elements false) d n s) (ih : Peaks (.elements false) d n s) :
    Peaks .value d (n + 1) (lbracket :: (w.bytes ++ s)) := by
  intro fuel st st' r hrest hfuel hp h
  obtain ⟨w₀, hrest⟩ := hrest
  obtain ⟨fuel, rfl⟩ := Nat.exists_eq_add_of_le' (Nat.le_trans (Nat.le_add_left 2 _) hfuel)
  obtain ⟨c, t, rfl, hsp, hend⟩ := hs.exists_element
  have hlen := congrArg List.length hrest
  rw [Place.parse, value_run w₀ hrest (by decide), if_neg (by decide), if_pos rfl,
    Trace.array, if_neg (Nat.not_lt.mpr hd), container_run w (by rfl) hsp hend] at h
  simp only [List.length_append, List.length_cons, Place.extra] at hlen hfuel
  have hpeak := @ih _ ⟨c :: t, st.cmds, st.active + 1, max st.peak (st.active + 1)⟩ _ _
    ⟨Ws.none, rfl, rfl⟩ (by simp only [List.length_cons, Place.extra]; omega)
    (Nat.le_max_right _ _) h
  simp only at hpeak
  omega

theorem Peaks.member {d n : Nat} {s : List UInt8} (key : Key) (hs : Opens .value (d + 1) n s)
    (ih : Peaks .value (d + 1) n s) : Peaks .members d n (key.bytes ++ s) := by
  intro fuel st st' r hrest hfuel hp h
  obtain ⟨fuel, rfl⟩ := Nat.exists_eq_add_of_le' (Nat.le_trans (Nat.le_add_left 1 _) hfuel)
  obtain ⟨b, t, rfl, hb, -⟩ := hs.exists_bracket
  have hsp : isspace b = false := by rcases hb with rfl | rfl <;> decide
  have hlen := length_of_key hrest
  rw [Place.parse, members, key_run key hrest hsp] at h
  obtain ⟨r₁, st₁, st₂, ⟨hrest₁, hactive, hpeak₁⟩, hpeak₂, hrun⟩ :=
    child_bind_cases (grows_after (grows_parse fuel d).2.1 rbrace) h
  simp only [List.head?_cons, Option.some.injEq, if_pos hb] at hrest₁ hactive hpeak₁ hrun
  simp only [Place.extra] at hfuel
  have hpeak := ih ⟨Ws.none, hrest₁.symm⟩ (by rw [← hrest₁, Place.extra]; omega)
    (by omega) hrun
  omega

theorem Peaks.nextMember {d n : Nat} {s : List UInt8} (key : Key) (v : Cst .value) (w : Ws)
    (hv : d + Cst.childWeight false (v.weight false) ≤ maxDepth + 1) (ih : Peaks .members d n s) :
    Peaks .members d n (key.bytes ++ (v.bytes ++ (w.bytes ++ comma :: s))) := by
  intro fuel st st' r hrest hfuel hp h
  obtain ⟨fuel, rfl⟩ := Nat.exists_eq_add_of_le' (Nat.le_trans (Nat.le_add_left 1 _) hfuel)
  obtain ⟨c, t, hcs, hsp, -⟩ := v.exists_bytes_eq_cons
  have hlen := length_of_key hrest
  have hcalls := v.calls_le
  simp only [List.length_append, List.length_cons, Place.extra] at hlen hfuel
  rw [hcs, List.cons_append] at hrest
  rw [Place.parse, members, key_run key hrest hsp] at h
  have hvalue : ReadsValue fuel v (w.bytes ++ comma :: s) :=
    (reads_cst v).readsValue (by omega) (follow_sep w (by decide) s)
  have hchild := reads_child hvalue Ws.none d
    { st with
      rest := c :: (t ++ (w.bytes ++ comma :: s))
      cmds := st.cmds ++ .indent d :: (key.name.cmds ++ [.str (Ascii.bytes ": ")]) }
    hv (by rw [hcs]; rfl)
  rw [Prog.bind_of_ok (hchild hp), comma_run w (by rfl)] at h
  have hpeak := ih (by rfl) (by simp only [Place.extra]; omega)
    (by simp only [St.after]; omega) h
  simp only [St.after] at hpeak
  omega

theorem Peaks.element {d n : Nat} {slip : Bool} {s : List UInt8}
    (hs : Opens .value (elementDepth slip d) n s) (ih : Peaks .value (elementDepth slip d) n s) :
    Peaks (.elements slip) d n s := by
  intro fuel st st' r hrest hfuel hp h
  obtain ⟨fuel, rfl⟩ := Nat.exists_eq_add_of_le' (Nat.le_trans (Nat.le_add_left 1 _) hfuel)
  obtain ⟨b, t, rfl, hb, -⟩ := hs.exists_bracket
  obtain ⟨gap, hrest, rfl⟩ := hrest
  rw [Place.parse, elements] at h
  simp only [emit, Prog.modify_bind_apply] at h
  obtain ⟨r₁, st₁, st₂, ⟨hrest₁, hactive, hpeak₁⟩, hpeak₂, hrun⟩ :=
    child_bind_cases (grows_after (grows_parse fuel d).2.2 rbracket) h
  simp only at hrest₁ hactive hpeak₁
  simp only [hrest, elementDepth_eq gap d hb] at hrun
  simp only [Place.extra] at hfuel
  have hpeak := ih ⟨gap, hrest₁.symm.trans hrest⟩ (by rw [← hrest₁, Place.extra]; omega)
    (by omega) hrun
  omega

theorem Peaks.nextElement {d n : Nat} {slip : Bool} {s : List UInt8} (v : Cst .value)
    (w gap' : Ws) (hv : d + Cst.childWeight slip (v.weight false) ≤ maxDepth + 1)
    (ih : Peaks (.elements (!gap'.bytes.isEmpty)) d n s) :
    Peaks (.elements slip) d n (v.bytes ++ (w.bytes ++ comma :: (gap'.bytes ++ s))) := by
  intro fuel st st' r hrest hfuel hp h
  obtain ⟨fuel, rfl⟩ := Nat.exists_eq_add_of_le' (Nat.le_trans (Nat.le_add_left 1 _) hfuel)
  obtain ⟨gap, hrest, rfl⟩ := hrest
  have hlen := congrArg List.length hrest
  have hcalls := v.calls_le
  simp only [List.length_append, List.length_cons, Place.extra] at hlen hfuel
  have hvalue : ReadsValue fuel v (w.bytes ++ comma :: (gap'.bytes ++ s)) :=
    (reads_cst v).readsValue (by omega) (follow_sep w (by decide) _)
  rw [Place.parse, elements] at h
  simp only [emit, Prog.modify_bind_apply] at h
  have hchild := reads_child hvalue gap d
    { st with cmds := st.cmds ++ [.indent d] ++ [.str (Ascii.bytes "- ")] } hv hrest
  rw [Prog.bind_of_ok (hchild hp), comma_run w (by rfl)] at h
  have hpeak := ih ⟨gap', rfl, rfl⟩
    (by simp only [List.length_append, Place.extra]; omega)
    (by simp only [St.after]; omega) h
  simp only [St.after] at hpeak
  omega

theorem peak_of_opens {p : Place} {d n : Nat} {s : List UInt8} (h : Opens p d n s) :
    Peaks p d n s := by
  induction h with
  | bracket hd hb => exact peaks_bracket hd hb
  | object hd w hs ih => exact ih.object hd w hs
  | array hd w hs ih => exact ih.array hd w hs
  | member key hs ih => exact ih.member key hs
  | nextMember key v w hv hs ih => exact ih.nextMember key v w hv
  | element hs ih => exact ih.element hs
  | nextElement v w gap hv hs ih => exact ih.nextElement v w gap hv

/-! ## 4. What is counted opens -/

/-- The run takes the peak to where it was not, `n` containers more than are open at its start. -/
def Raises (n : Nat) (st st' : St) : Prop :=
  st.active ≤ st.peak ∧ st.peak < st.active + n ∧ st.active + n ≤ st'.peak

/-- With more than one container to come, the others open in the loop of the first. -/
theorem Raises.loop {loop : Prog St Unit} {b : UInt8} {n : Nat} {r : Option Unit} {st st' : St}
    (hn : Raises n st st') (hone : 1 < n)
    (h : (do
      enter
      next
      skipWs
      let c ← peek
      if c = some b then do
        next
        leave
      else loop) st = some (r, st')) :
    ∃ (w : Ws) (st₁ : St), st.rest.tail = w.bytes ++ st₁.rest ∧
      st₁.rest.dropWhile isspace = st₁.rest ∧ loop st₁ = some (r, st') ∧ Raises (n - 1) st₁ st' := by
  obtain ⟨hp, hlt, hle⟩ := hn
  rcases container_cases h with ⟨hpeak, -⟩ | ⟨st₁, hdrop, hactive, hpeak, hloop, w, htail⟩
  · omega
  · exact ⟨w, st₁, htail, hdrop, hloop, by omega, by omega, by omega⟩

/-- A run of `value` with enough fuel that takes the peak up `n` containers opens them. -/
def OpensValue (fuel : Nat) : Prop :=
  ∀ d n st r st', 3 * st.rest.length + 2 ≤ fuel → value fuel d st = some (r, st') →
    Raises n st st' → ∃ (w : Ws) (s : List UInt8), st.rest = w.bytes ++ s ∧ Opens .value d n s

/-- So does a run of a container's function, which starts at the bracket. -/
def OpensContainer (container : Nat → Nat → Prog St Unit) (b : UInt8) (fuel : Nat) : Prop :=
  ∀ d n st r st', 3 * st.rest.length + 1 ≤ fuel → container fuel d st = some (r, st') →
    st.rest.head? = some b → Raises n st st' → Opens .value d n st.rest

def OpensMembers (fuel : Nat) : Prop :=
  ∀ d n st r st', 3 * st.rest.length + 3 ≤ fuel → members fuel d st = some (r, st') →
    d ≤ maxDepth → Raises n st st' → Opens .members d n st.rest

def OpensElements (fuel : Nat) : Prop :=
  ∀ d n st r st', 3 * st.rest.length + 3 ≤ fuel → elements fuel d st = some (r, st') →
    d ≤ maxDepth → Raises n st st' → ∃ (gap : Ws) (s : List UInt8), st.rest = gap.bytes ++ s ∧
      Opens (.elements (!gap.bytes.isEmpty)) d n s

/-- What opens in the value of a member or an element. -/
theorem opens_of_child {fuel : Nat} (hvalue : OpensValue fuel) {d n : Nat} {r : Option Unit}
    {st st' : St} (hfuel : 3 * st.rest.length + 2 ≤ fuel)
    (h : child (value fuel) d st = some (r, st')) (hn : Raises n st st') :
    ∃ (gap : Ws) (s : List UInt8), st.rest = gap.bytes ++ s ∧
      Opens .value (elementDepth (!gap.bytes.isEmpty) d) n s := by
  obtain ⟨st₁, st₂, ⟨hrest₁, hactive₁, hpeak₁⟩, ⟨-, -, hpeak₂⟩, hrun⟩ := child_cases h
  obtain ⟨hp, hlt, hle⟩ := hn
  obtain ⟨gap, s, hs, hopens⟩ := hvalue _ n st₁ r st₂ (by rw [← hrest₁]; exact hfuel) hrun
    ⟨by omega, by omega, by omega⟩
  rw [← hrest₁] at hs
  obtain ⟨b, t, rfl, hb, -⟩ := hopens.exists_bracket
  rw [hs, elementDepth_eq gap d hb] at hopens
  exact ⟨gap, _, hs, hopens⟩

/-- A member or an element and what follows it: the containers open in its value, or behind the
comma after it. -/
theorem Raises.child {fuel : Nat} {loop : Prog St Unit} {b : UInt8}
    (hvalue : OpensValue fuel) {d n : Nat} {r : Option Unit} {st st' : St}
    (hfuel : 3 * st.rest.length + 2 ≤ fuel)
    (hd : d ≤ maxDepth) (hn : Raises n st st')
    (h : (do
      Trace.child (value fuel) d
      skipWs
      let c ← peek
      if c = some comma then do
        next
        loop
      else close b) st = some (r, st')) :
    (∃ (gap : Ws) (s : List UInt8), st.rest = gap.bytes ++ s ∧
      Opens .value (elementDepth (!gap.bytes.isEmpty) d) n s) ∨
    ∃ (gap : Ws) (v : Cst .value) (w : Ws) (st₁ : St),
      st.rest = gap.bytes ++ (v.bytes ++ (w.bytes ++ comma :: st₁.rest)) ∧
      d + Cst.childWeight (!gap.bytes.isEmpty) (v.weight false) ≤ maxDepth + 1 ∧
      loop st₁ = some (r, st') ∧ Raises n st₁ st' := by
  obtain ⟨hp, hlt, hle⟩ := hn
  rcases Prog.bind_cases h with ⟨-, hfail⟩ | ⟨_, st₃, hok, hrest⟩
  · exact .inl (opens_of_child hvalue hfuel hfail ⟨hp, hlt, hle⟩)
  · rcases Nat.lt_or_ge st₃.peak (st.active + n) with hlow | hhigh
    · rcases after_child_cases hrest with ⟨hpeak, -⟩ | ⟨w, s, hcomma, hloop⟩
      · omega
      · obtain ⟨gap, v, hv, hroom⟩ := child_eq_ok (sound_parse fuel).1 hok hd
        have hfollow : Follow st₃.rest := hcomma ▸ follow_sep w (by decide) s
        obtain ⟨hactive, hp₃⟩ := child_ok_active hd (by omega) hp hfollow hok
        exact .inr ⟨gap, v, w, { st₃ with rest := s }, hcomma ▸ hv, hroom, hloop, hp₃,
          hactive ▸ hlow, hactive ▸ hle⟩
    · exact .inl (opens_of_child hvalue hfuel hok ⟨hp, hlt, hhigh⟩)

/-- The bracket opens a container; with more to come, they open in the loop behind it. -/
theorem opens_container {loop : Prog St Unit} {b e : UInt8} (hb : b = lbrace ∨ b = lbracket)
    {d n : Nat} {r : Option Unit} {st st' : St} {t : List UInt8} (hd : d ≤ maxDepth)
    (hrest : st.rest = b :: t) (hn : Raises n st st')
    (hloop : ∀ (w : Ws) (m : Nat) (st₁ : St), n = m + 1 → t = w.bytes ++ st₁.rest →
      st₁.rest.dropWhile isspace = st₁.rest → loop st₁ = some (r, st') → Raises m st₁ st' →
      Opens .value d n (b :: t))
    (h : (do
      enter
      next
      skipWs
      let c ← peek
      if c = some e then do
        next
        leave
      else loop) st = some (r, st')) : Opens .value d n (b :: t) := by
  rcases Nat.lt_or_ge 1 n with hone | hone
  · obtain ⟨m, rfl⟩ := Nat.exists_eq_add_of_le' (Nat.le_of_lt hone)
    obtain ⟨w, st₁, htail, hdrop, hrun, hn₁⟩ := hn.loop hone h
    rw [hrest, List.tail_cons] at htail
    exact hloop w m st₁ rfl htail hdrop hrun hn₁
  · obtain ⟨hp, hlt, -⟩ := hn
    obtain rfl : n = 1 := by omega
    exact .bracket hd hb

theorem opensValue_succ {fuel : Nat} (hobject : OpensContainer object lbrace fuel)
    (harray : OpensContainer array lbracket fuel) : OpensValue (fuel + 1) := by
  intro d n st r st' hfuel h hn
  obtain ⟨w, hw⟩ := exists_ws st.rest
  have hlen := length_dropWhile_le isspace st.rest
  have hquiet : st'.peak = st.peak → False := fun heq => by
    obtain ⟨-, hlt, hle⟩ := hn
    omega
  refine ⟨w, _, hw, ?_⟩
  rw [value] at h
  simp only [skipWs, peek, Prog.modify_bind_apply, Prog.modifyGet_bind_apply] at h
  rcases hc : (st.rest.dropWhile isspace).head? with _ | c
  · rw [hc] at h
    cases h
    exact (hquiet rfl).elim
  rw [hc] at h
  simp only at h
  split at h
  · next hobj => exact hobject d n _ r st' (by simp only; omega) h (hobj ▸ hc) hn
  split at h
  · next harr => exact harray d n _ r st' (by simp only; omega) h (harr ▸ hc) hn
  -- nothing else opens a container
  refine (hquiet ?_).elim
  split at h
  · exact (token_counters h).2
  split at h
  · exact (token_counters h).2
  split at h
  · exact (token_counters h).2
  split at h
  · exact (token_counters h).2
  split at h
  · exact (token_counters h).2
  · cases h
    rfl

theorem opensContainer_object {fuel : Nat} (hmembers : OpensMembers fuel) :
    OpensContainer object lbrace (fuel + 1) := by
  intro d n st r st' hfuel h hhead hn
  rw [object] at h
  split at h
  · cases h
    have hlt := hn.2
    omega
  next hdepth =>
  have hd : d ≤ maxDepth := Nat.le_of_not_lt hdepth
  obtain ⟨t, ht⟩ := List.head?_eq_some_iff.mp hhead
  rw [ht, List.length_cons] at hfuel
  rw [ht]
  refine opens_container (.inl rfl) hd ht hn (fun w m st₁ hm htail _ hloop hn₁ => ?_) h
  subst hm htail
  rw [List.length_append] at hfuel
  exact .object hd w (hmembers d m st₁ r st' (by omega) hloop hd hn₁)

theorem opensMembers_succ {fuel : Nat} (hvalue : OpensValue fuel) (hmembers : OpensMembers fuel) :
    OpensMembers (fuel + 1) := by
  intro d n st r st' hfuel h hd hn
  rw [members] at h
  rcases key_cases h with ⟨-, hpeak⟩ | ⟨key, st₁, hkey, hdrop, hactive, hpeak, h⟩
  · have hlt := hn.2
    omega
  have hlen := length_of_key (congrArg (List.dropWhile isspace) hkey)
  have hn₁ : Raises n st₁ st' := by
    obtain ⟨hp, hlt, hle⟩ := hn
    exact ⟨by omega, by omega, by omega⟩
  rw [hkey]
  rcases hn₁.child hvalue (by omega) hd h with
    ⟨gap, s, hs, hopens⟩ | ⟨gap, v, w, st₂, hv, hroom, hloop, hn₂⟩
  · obtain ⟨b, t, rfl, hb, -⟩ := hopens.exists_bracket
    have hgap : gap.bytes = [] := Ws.eq_nil_of_dropWhile hs
      (by rcases hb with rfl | rfl <;> decide) hdrop
    rw [hgap] at hopens
    rw [hs, hgap, List.nil_append]
    exact .member key hopens
  · obtain ⟨c, cs, hcs, hsp, -⟩ := v.exists_bytes_eq_cons
    have hgap : gap.bytes = [] := Ws.eq_nil_of_dropWhile (by rw [hv, hcs]; rfl) hsp hdrop
    have hlen₂ := congrArg List.length hv
    simp only [List.length_append, List.length_cons] at hlen₂
    rw [hgap] at hroom
    rw [hv, hgap, List.nil_append]
    exact .nextMember key v w hroom (hmembers d n st₂ r st' (by omega) hloop hd hn₂)

theorem opensContainer_array {fuel : Nat} (helements : OpensElements fuel) :
    OpensContainer array lbracket (fuel + 1) := by
  intro d n st r st' hfuel h hhead hn
  rw [array] at h
  split at h
  · cases h
    have hlt := hn.2
    omega
  next hdepth =>
  have hd : d ≤ maxDepth := Nat.le_of_not_lt hdepth
  obtain ⟨t, ht⟩ := List.head?_eq_some_iff.mp hhead
  rw [ht, List.length_cons] at hfuel
  rw [ht]
  refine opens_container (.inr rfl) hd ht hn (fun w m st₁ hm htail hdrop hloop hn₁ => ?_) h
  subst hm htail
  rw [List.length_append] at hfuel
  obtain ⟨gap, s, hs, hopens⟩ := helements d m st₁ r st' (by omega) hloop hd hn₁
  obtain ⟨c, cs, rfl, hsp, -⟩ := hopens.exists_element
  -- white space before the first element was skipped with the bracket
  have hgap : gap.bytes = [] := Ws.eq_nil_of_dropWhile hs hsp hdrop
  rw [hgap] at hopens
  rw [hs, hgap, List.nil_append]
  exact .array hd w hopens

theorem opensElements_succ {fuel : Nat} (hvalue : OpensValue fuel)
    (helements : OpensElements fuel) : OpensElements (fuel + 1) := by
  intro d n st r st' hfuel h hd hn
  rw [elements] at h
  simp only [emit, Prog.modify_bind_apply] at h
  have hn₁ : Raises n
      { st with cmds := st.cmds ++ [.indent d] ++ [.str (Ascii.bytes "- ")] } st' := hn
  rcases hn₁.child hvalue (by simp only; omega) hd h with
    ⟨gap, s, hs, hopens⟩ | ⟨gap, v, w, st₂, hv, hroom, hloop, hn₂⟩
  · exact ⟨gap, s, hs, .element hopens⟩
  · simp only at hv
    have hlen₂ := congrArg List.length hv
    simp only [List.length_append, List.length_cons] at hlen₂
    obtain ⟨gap', s, hs, hopens⟩ := helements d n st₂ r st' (by omega) hloop hd hn₂
    refine ⟨gap, _, hv, ?_⟩
    rw [hs]
    exact .nextElement v w gap' hroom hopens

/-- What raises the peak are containers that open. -/
theorem opens_of_peak (fuel : Nat) :
    OpensValue fuel ∧ OpensContainer object lbrace fuel ∧ OpensMembers fuel ∧
      OpensContainer array lbracket fuel ∧ OpensElements fuel := by
  induction fuel with
  | zero => refine ⟨?_, ?_, ?_, ?_, ?_⟩ <;> intro _ _ _ _ _ hfuel <;> omega
  | succ fuel ih =>
    obtain ⟨hvalue, hobject, hmembers, harray, helements⟩ := ih
    exact ⟨opensValue_succ hobject harray, opensContainer_object hmembers,
      opensMembers_succ hvalue hmembers, opensContainer_array helements,
      opensElements_succ hvalue helements⟩

/-! ## 5. Texts without room -/

/-- The run ends with an error. -/
def Fails (m : Prog St Unit) (st : St) : Prop := ∃ st', m st = some (none, st')

theorem Fails.bind {m : Prog St Unit} {k : Unit → Prog St Unit} {st : St} (h : Fails m st) :
    Fails (m >>= k) st := by
  obtain ⟨st', h⟩ := h
  exact ⟨st', Prog.bind_of_fail h⟩

theorem childWeight_eq (slip : Bool) (d weight : Nat) :
    d + Cst.childWeight slip weight = elementDepth slip d + weight := by
  cases slip
  · exact (Nat.add_right_comm d weight 1 : d + weight + 1 = d + 1 + weight)
  · rfl

/-- The container is refused at every depth that leaves no room for it. -/
def FailsValue (fuel : Nat) (v : Cst .value) (k : List UInt8) : Prop :=
  ∀ (w : Ws) (d : Nat) (st : St), maxDepth + 1 < d + v.weight false → v.isContainer = true →
    st.rest = w.bytes ++ (v.bytes ++ k) → st.active ≤ st.peak → Fails (value fuel d) st

/-- A value without room is refused as a member or an element. -/
theorem fails_child {fuel d : Nat} {v : Cst .value} {k : List UInt8} (hv : FailsValue fuel v k)
    (gap : Ws) (st : St) (hd : d ≤ maxDepth)
    (hheavy : maxDepth + 1 < d + Cst.childWeight (!gap.bytes.isEmpty) (v.weight false))
    (hrest : st.rest = gap.bytes ++ (v.bytes ++ k)) (hp : st.active ≤ st.peak) :
    Fails (child (value fuel) d) st := by
  have hcon : v.isContainer = true := by
    cases hcon : v.isContainer with
    | true => rfl
    | false =>
      have hle := Cst.childWeight_le (!gap.bytes.isEmpty) 0
      rw [Cst.weight_scalar hcon] at hheavy
      omega
  obtain ⟨c, s, hcs, -, -, hbracket⟩ := v.exists_bytes_eq_cons
  have hdepth := elementDepth_eq gap d (hbracket.mp hcon) (s ++ k)
  rw [hcs, List.cons_append] at hrest
  rw [← hrest] at hdepth
  have hvalue : ∀ cs, Fails (value fuel (elementDepth (!gap.bytes.isEmpty) d))
      { st with cmds := cs } := fun cs =>
    hv gap _ _ (by rw [← childWeight_eq]; exact hheavy) hcon (by rw [hcs]; exact hrest) hp
  rw [Fails, child, peek, Prog.modifyGet_bind_apply]
  split
  · next hhead =>
    rw [if_pos hhead] at hdepth
    rw [emit, Prog.modify_bind_apply, hdepth]
    exact hvalue _
  · next hhead =>
    rw [if_neg hhead] at hdepth
    rw [hdepth]
    exact Fails.bind (hvalue st.cmds)

/-- The functions refuse the tree where there is no room for it. -/
def FailsCst {p : Part} (t : Cst p) : Prop :=
  ∀ (fuel d : Nat) (gap : Ws) (k : List UInt8) (st : St), t.calls ≤ fuel →
    maxDepth + 1 < d + t.weight (!gap.bytes.isEmpty) → (d ≤ maxDepth ∨ t.isContainer = true) →
    Follow k → p.Starts gap st.rest (t.bytes ++ k) → st.active ≤ st.peak →
    Fails (p.parse fuel d) st

theorem FailsCst.failsValue {v : Cst .value} (h : FailsCst v) {fuel : Nat} {k : List UInt8}
    (hfuel : v.calls ≤ fuel) (hk : Follow k) : FailsValue fuel v k := by
  intro gap d st hheavy hcon hrest hp
  exact h fuel d gap k st hfuel (by rwa [Cst.weight_value]) (.inr hcon) hk hrest hp

theorem failsCst_emptyObject (w : Ws) : FailsCst (.emptyObject w) := by
  intro fuel d gap k st hfuel hheavy hd hk hrest hp
  obtain ⟨fuel, rfl⟩ := Nat.exists_eq_add_of_le' (Nat.le_trans (Nat.le_refl 2) hfuel)
  simp only [Part.Starts, Cst.bytes, List.cons_append, List.append_assoc] at hrest
  rw [Fails, Part.parse, value_run gap hrest (by decide), if_pos rfl, object,
    if_pos (Nat.lt_of_add_lt_add_right hheavy)]
  exact ⟨_, rfl⟩

theorem FailsCst.object {ms : Cst .members} (ih : FailsCst ms) : FailsCst (.object ms) := by
  intro fuel d gap k st hfuel hheavy hd hk hrest hp
  obtain ⟨fuel, rfl⟩ := Nat.exists_eq_add_of_le' (Nat.le_trans (Nat.le_add_left 2 _) hfuel)
  obtain ⟨w, s, hms⟩ := ms.exists_members_bytes
  rw [Fails, Part.parse, value_run gap hrest (by decide), if_pos rfl, Trace.object]
  split
  · exact ⟨_, rfl⟩
  next hd =>
  rw [container_run w (c := quote) (s := s ++ k)
    (by rw [← List.cons_append, ← List.append_assoc, ← hms]; rfl) (by decide) (by decide)]
  refine ih _ d Ws.none k _ (Nat.le_of_add_le_add_right hfuel) hheavy
    (.inl (Nat.le_of_not_lt hd)) hk ?_ (Nat.le_max_right _ _)
  rw [Part.Starts, hms, List.append_assoc, w.dropWhile_append]
  rfl

theorem failsCst_emptyArray (w : Ws) : FailsCst (.emptyArray w) := by
  intro fuel d gap k st hfuel hheavy hd hk hrest hp
  obtain ⟨fuel, rfl⟩ := Nat.exists_eq_add_of_le' (Nat.le_trans (Nat.le_refl 2) hfuel)
  simp only [Part.Starts, Cst.bytes, List.cons_append, List.append_assoc] at hrest
  rw [Fails, Part.parse, value_run gap hrest (by decide), if_neg (by decide), if_pos rfl, array,
    if_pos (Nat.lt_of_add_lt_add_right hheavy)]
  exact ⟨_, rfl⟩

theorem FailsCst.array (w : Ws) {es : Cst .elements} (ih : FailsCst es) :
    FailsCst (.array w es) := by
  intro fuel d gap k st hfuel hheavy hd hk hrest hp
  obtain ⟨fuel, rfl⟩ := Nat.exists_eq_add_of_le' (Nat.le_trans (Nat.le_add_left 2 _) hfuel)
  obtain ⟨c, s, hes, hsp, hend⟩ := es.exists_elements_bytes
  simp only [Part.Starts, Cst.bytes, List.cons_append, List.append_assoc] at hrest
  rw [Fails, Part.parse, value_run gap hrest (by decide), if_neg (by decide), if_pos rfl,
    Trace.array]
  split
  · exact ⟨_, rfl⟩
  next hd =>
  have hweight : maxDepth + 1 < d + es.weight false := by
    simp only [Cst.weight] at hheavy
    omega
  rw [container_run w (c := c) (s := s ++ k) (by rw [List.tail_cons, hes]; rfl) hsp hend]
  refine ih _ d Ws.none k _ (Nat.le_of_add_le_add_right hfuel) hweight
    (.inl (Nat.le_of_not_lt hd)) hk ?_ (Nat.le_max_right _ _)
  rw [Part.Starts, hes]
  rfl

/-- There is always room for these. -/
theorem failsCst_scalar {v : Cst .value} (hv : v.isContainer = false) : FailsCst v := by
  intro fuel d gap k st hfuel hheavy hd hk hrest hp
  rw [hv, or_iff_left Bool.false_ne_true] at hd
  rw [Cst.weight_value, Cst.weight_scalar hv] at hheavy
  omega

theorem FailsCst.lastMember (key : Key) {v : Cst .value} (w : Ws) (ih : FailsCst v) :
    FailsCst (.lastMember key v w) := by
  intro fuel d gap k st hfuel hheavy hd hk hrest hp
  obtain ⟨fuel, rfl⟩ := Nat.exists_eq_add_of_le' (Nat.le_trans (Nat.le_add_left 1 _) hfuel)
  obtain ⟨c, s, hv, hsp, -⟩ := v.exists_bytes_eq_cons
  have hd : d ≤ maxDepth := hd.resolve_right (fun h => by cases h)
  simp only [Part.Starts, Cst.bytes, List.append_assoc, List.cons_append, List.nil_append]
    at hrest
  rw [hv, List.cons_append] at hrest
  rw [Fails, Part.parse, members, key_run key hrest hsp]
  have hvalue : FailsValue fuel v (w.bytes ++ rbrace :: k) :=
    ih.failsValue (Nat.le_of_add_le_add_right hfuel) (follow_sep w (by decide) k)
  exact Fails.bind (fails_child hvalue Ws.none _ hd hheavy (by rw [hv]; rfl) hp)

theorem FailsCst.member (key : Key) {v : Cst .value} (w : Ws) {ms : Cst .members}
    (ihv : FailsCst v) (ihms : FailsCst ms) : FailsCst (.member key v w ms) := by
  intro fuel d gap k st hfuel hheavy hd hk hrest hp
  obtain ⟨fuel, rfl⟩ := Nat.exists_eq_add_of_le' (Nat.le_trans (Nat.le_add_left 1 _) hfuel)
  obtain ⟨c, s, hv, hsp, -⟩ := v.exists_bytes_eq_cons
  have hd : d ≤ maxDepth := hd.resolve_right (fun h => by cases h)
  have hfollow := follow_sep w (c := comma) (by decide) (ms.bytes ++ k)
  simp only [Cst.calls] at hfuel
  simp only [Part.Starts, Cst.bytes, List.append_assoc, List.cons_append] at hrest
  rw [hv, List.cons_append] at hrest
  rw [Fails, Part.parse, members, key_run key hrest hsp]
  rcases Nat.lt_or_ge (maxDepth + 1) (d + Cst.childWeight false (v.weight false)) with hlt | hge
  · have hvalue : FailsValue fuel v _ := ihv.failsValue (by omega) hfollow
    exact Fails.bind (fails_child hvalue Ws.none _ hd hlt (by rw [hv]; rfl) hp)
  · have hvalue : ReadsValue fuel v _ := (reads_cst v).readsValue (by omega) hfollow
    have hchild := reads_child hvalue Ws.none d { st with
      rest := c :: (s ++ (w.bytes ++ comma :: (ms.bytes ++ k)))
      cmds := st.cmds ++ .indent d :: (key.name.cmds ++ [.str (Ascii.bytes ": ")]) }
      hge (by rw [hv]; rfl) hp
    have hweight : maxDepth + 1 < d + ms.weight false := by
      simp only [Cst.weight] at hheavy
      omega
    rw [Prog.bind_of_ok hchild, comma_run w (by rfl)]
    exact ihms fuel d Ws.none k _ (by omega) hweight (.inl hd) hk (by rfl)
      (by simp only [St.after]; omega)

theorem FailsCst.lastElement {v : Cst .value} (w : Ws) (ih : FailsCst v) :
    FailsCst (.lastElement v w) := by
  intro fuel d gap k st hfuel hheavy hd hk hrest hp
  obtain ⟨fuel, rfl⟩ := Nat.exists_eq_add_of_le' (Nat.le_trans (Nat.le_add_left 1 _) hfuel)
  have hd : d ≤ maxDepth := hd.resolve_right (fun h => by cases h)
  simp only [Part.Starts, Cst.bytes, List.append_assoc, List.cons_append, List.nil_append]
    at hrest
  rw [Fails, Part.parse, elements]
  simp only [emit, Prog.modify_bind_apply]
  have hvalue : FailsValue fuel v (w.bytes ++ rbracket :: k) :=
    ih.failsValue (Nat.le_of_add_le_add_right hfuel) (follow_sep w (by decide) k)
  exact Fails.bind (fails_child hvalue gap _ hd hheavy hrest hp)

theorem FailsCst.element {v : Cst .value} (w gap' : Ws) {es : Cst .elements} (ihv : FailsCst v)
    (ihes : FailsCst es) : FailsCst (.element v w gap' es) := by
  intro fuel d gap k st hfuel hheavy hd hk hrest hp
  obtain ⟨fuel, rfl⟩ := Nat.exists_eq_add_of_le' (Nat.le_trans (Nat.le_add_left 1 _) hfuel)
  have hd : d ≤ maxDepth := hd.resolve_right (fun h => by cases h)
  have hfollow := follow_sep w (c := comma) (by decide) (gap'.bytes ++ (es.bytes ++ k))
  simp only [Cst.calls] at hfuel
  simp only [Part.Starts, Cst.bytes, List.append_assoc, List.cons_append] at hrest
  rw [Fails, Part.parse, elements]
  simp only [emit, Prog.modify_bind_apply]
  rcases Nat.lt_or_ge (maxDepth + 1)
    (d + Cst.childWeight (!gap.bytes.isEmpty) (v.weight false)) with hlt | hge
  · have hvalue : FailsValue fuel v _ := ihv.failsValue (by omega) hfollow
    exact Fails.bind (fails_child hvalue gap _ hd hlt hrest hp)
  · have hvalue : ReadsValue fuel v _ := (reads_cst v).readsValue (by omega) hfollow
    have hchild := reads_child hvalue gap d
      { st with cmds := st.cmds ++ [.indent d] ++ [.str (Ascii.bytes "- ")] } hge hrest hp
    have hweight : maxDepth + 1 < d + es.weight (!gap'.bytes.isEmpty) := by
      simp only [Cst.weight] at hheavy
      omega
    rw [Prog.bind_of_ok hchild, comma_run w (by rfl)]
    exact ihes fuel d gap' k _ (by omega) hweight (.inl hd) hk (by rfl)
      (by simp only [St.after]; omega)

theorem fails_cst {p : Part} (t : Cst p) : FailsCst t := by
  induction t with
  | emptyObject w => exact failsCst_emptyObject w
  | object ms ih => exact ih.object
  | emptyArray w => exact failsCst_emptyArray w
  | array w es ih => exact ih.array w
  | string | literal | number => exact failsCst_scalar rfl
  | lastMember key v w ih => exact ih.lastMember key w
  | member key v w ms ihv ihms => exact ihv.member key w ihms
  | lastElement v w ih => exact ih.lastElement w
  | element v w gap es ihv ihes => exact ihv.element w gap ihes

/-- The run up to the value: what a text does is decided there. -/
theorem run_eq_value {input : List UInt8} {c : UInt8} {s : List UInt8} (w : Ws)
    (hinput : input = w.bytes ++ c :: s) (hc : isspace c = false) :
    run input =
      (do
        value (Stream.callBound input) 0
        skipWs
        let c ← peek
        if c ≠ none then .fail else emit [.flush] : Prog St Unit) ⟨c :: s, [], 0, 0⟩ := by
  have hdrop : (St.start input).rest.dropWhile isspace = c :: s := by
    rw [St.start, hinput, w.dropWhile_append_cons s hc]
  simp only [run, text, skipWs, peek, Prog.modify_bind_apply, Prog.modifyGet_bind_apply]
  rw [hdrop, List.head?_cons, if_neg (fun h => by cases h)]
  rfl

theorem run_fails {t : Text} (h : maxDepth + 1 < t.value.weight false) :
    ∃ st, run t.bytes = some (none, st) := by
  obtain ⟨c, s, hv, hsp, -⟩ := t.value.exists_bytes_eq_cons
  have hcon : t.value.isContainer = true := by
    cases hcon : t.value.isContainer with
    | true => rfl
    | false =>
      rw [Cst.weight_scalar hcon] at h
      omega
  have hfuel : t.value.calls ≤ Stream.callBound t.bytes := by
    have hcalls := t.value.calls_le
    simp only [Stream.callBound, Text.bytes, List.length_append]
    omega
  have hfollow : Follow t.after.bytes := by
    have h := t.after.follow follow_nil
    rwa [List.append_nil] at h
  rw [run_eq_value t.before (s := s ++ t.after.bytes) (by rw [Text.bytes, hv]; rfl) hsp]
  exact Fails.bind (fails_cst t.value _ 0 Ws.none t.after.bytes _ hfuel
    ((Nat.zero_add _).symm ▸ h) (.inr hcon) hfollow (by rw [Part.Starts, hv]; rfl)
    (Nat.le_refl 0))

/-- The peak of a run is reached while its value is read. -/
theorem exists_value_run {input : List UInt8} {r : Option Unit} {st : St}
    (h : run input = some (r, st)) {c : UInt8} {s : List UInt8} (w : Ws)
    (hinput : input = w.bytes ++ c :: s) (hc : isspace c = false) :
    ∃ r' st', value (Stream.callBound input) 0 ⟨c :: s, [], 0, 0⟩ = some (r', st') ∧
      st'.peak = st.peak := by
  rw [run_eq_value w hinput hc] at h
  rcases Prog.bind_cases h with ⟨-, hfail⟩ | ⟨_, st', hok, hrest⟩
  · exact ⟨none, st, hfail, rfl⟩
  · refine ⟨_, st', hok, ?_⟩
    simp only [skipWs, peek, Prog.modify_bind_apply, Prog.modifyGet_bind_apply] at hrest
    split at hrest <;> cases hrest <;> rfl

end Trace

/-! ## 6. The limit -/

/-- At no point of the run are more than 25 calls active, and nothing nested deeper is accepted. -/
def Limited (input : List UInt8) : Prop :=
  (∃ n, Stream.peakCalls input = some n ∧ n ≤ maxDepth + 1) ∧
  ∀ t : Text, t.bytes = input → maxDepth + 1 < t.nest →
    ∃ e, Stream.main input = some e ∧ e.status = 1

/-- The calls that are active at once are the containers that open. -/
theorem le_peak_iff {input : List UInt8} {r : Option Unit} {st : Trace.St}
    (hrun : Trace.run input = some (r, st)) {n : Nat} (hn : 0 < n) :
    n ≤ st.peak ↔ ∃ (w : Ws) (s : List UInt8), input = w.bytes ++ s ∧ Opens .value 0 n s := by
  have hbound : ∀ s : List UInt8, s.length ≤ input.length →
      3 * s.length + 2 ≤ Stream.callBound input := by
    intro s hs
    rw [Stream.callBound]
    omega
  constructor
  · intro hle
    obtain ⟨w, hw⟩ := exists_ws input
    have hlen := congrArg List.length hw
    rw [List.length_append] at hlen
    rcases hdrop : input.dropWhile isspace with _ | ⟨c, s⟩
    · -- nothing but white space: no call at all
      simp only [Trace.run, Trace.text, Trace.skipWs, Trace.peek, Prog.modify_bind_apply,
        Prog.modifyGet_bind_apply, Trace.St.start] at hrun
      rw [hdrop, List.head?_nil, if_pos rfl] at hrun
      cases hrun
      exact absurd hle (Nat.not_le.mpr hn)
    · have hc : isspace c = false := by
        have h := List.head?_dropWhile_not isspace input
        rw [hdrop] at h
        simpa using h
      rw [hdrop] at hw hlen
      obtain ⟨r', st', hvalue, hpeak⟩ := Trace.exists_value_run hrun w hw hc
      obtain ⟨w', s', hs', hopens⟩ := (Trace.opens_of_peak _).1 0 n _ r' st'
        (hbound (c :: s) (by omega)) hvalue ⟨Nat.le_refl 0, by simp only; omega, by simp only; omega⟩
      refine ⟨⟨w.bytes ++ w'.bytes, by rw [List.all_append, w.space, w'.space]; rfl⟩, s', ?_, hopens⟩
      simp only at hs'
      rw [hw, hs', List.append_assoc]
  · rintro ⟨w, s, hinput, hopens⟩
    have hlen := congrArg List.length hinput
    rw [List.length_append] at hlen
    obtain ⟨b, t, rfl, hb, -⟩ := hopens.exists_bracket
    obtain ⟨r', st', hvalue, hpeak⟩ := Trace.exists_value_run hrun w hinput
      (by rcases hb with rfl | rfl <;> decide)
    have hle : 0 + n ≤ st'.peak := @Trace.peak_of_opens _ _ _ _ hopens _ ⟨b :: t, [], 0, 0⟩ _ _
      ⟨Ws.none, rfl⟩ (hbound (b :: t) (by omega)) (Nat.le_refl 0) hvalue
    omega

/-- The limit holds exactly on the inputs in which no 26 containers open, each with room for its
depth. -/
theorem limited_iff (input : List UInt8) :
    Limited input ↔
      ∀ (w : Ws) (s : List UInt8), input = w.bytes ++ s → ¬ Opens .value 0 (maxDepth + 2) s := by
  obtain ⟨r, st, hrun⟩ := Trace.exists_run input
  obtain ⟨e, he, hout, hpeak⟩ := Stream.main_outcome hrun
  have hopens := le_peak_iff hrun (n := maxDepth + 2) (by decide)
  constructor
  · rintro ⟨⟨n, hn, hle⟩, -⟩ w s hinput h
    obtain rfl : st.peak = n := Option.some.inj (hpeak.symm.trans hn)
    exact absurd (hopens.mpr ⟨w, s, hinput, h⟩) (Nat.not_le.mpr (Nat.lt_succ_of_le hle))
  · intro h
    have hle : st.peak ≤ maxDepth + 1 := by
      by_contra hlt
      obtain ⟨w, s, hinput, hs⟩ := hopens.mp (Nat.lt_of_not_le hlt)
      exact h w s hinput hs
    refine ⟨⟨_, hpeak, hle⟩, ?_⟩
    rintro t rfl hnest
    refine ⟨e, he, ?_⟩
    rcases Nat.lt_or_ge (maxDepth + 1) (t.value.weight false) with hheavy | hlight
    · obtain ⟨st', hfail⟩ := Trace.run_fails hheavy
      rw [hfail] at hrun
      cases hrun
      exact congrArg Outcome.status hout
    · -- a text that is read nests as deep as the peak
      rw [Trace.run_text t hlight] at hrun
      cases hrun
      exact absurd hle (Nat.not_le.mpr hnest)

/-- Twenty-six arrays, each but the first the second element of the one around it. -/
theorem not_limited_spaced_arrays :
    ¬ Limited ((List.replicate 25 (Ascii.bytes "[0, ")).flatten ++
      (Ascii.bytes "[]" ++ List.replicate 25 rbracket)) := by
  rintro ⟨⟨n, hn, hle⟩, -⟩
  have hpeak : Stream.peakCalls ((List.replicate 25 (Ascii.bytes "[0, ")).flatten ++
      (Ascii.bytes "[]" ++ List.replicate 25 rbracket)) = some 26 := by
    decide +kernel
  rw [hpeak] at hn
  cases hn
  exact absurd hle (by decide)

end J2t
