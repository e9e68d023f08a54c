import ZteWifi.J2t.Agreement
import ZteWifi.J2t.Completeness

/-!
# What the converter reads, the grammar derives

The converse of `J2t.Completeness`: a call that returned has read the text of a tree.  The induction
is on the call bound, and the tree is put together from those of the calls it made.
-/

open Ascii LineBuf

namespace J2t

/-- The white space at the start of the input. -/
theorem exists_ws (s : List UInt8) : ∃ w : Ws, s = w.bytes ++ s.dropWhile isspace :=
  ⟨⟨s.takeWhile isspace, List.all_takeWhile⟩, List.takeWhile_append_dropWhile.symm⟩

/-- White space in front of a byte that is none is empty. -/
theorem Ws.eq_nil_of_head {w : Ws} {c : UInt8} {s r : List UInt8} (h : w.bytes ++ s = c :: r)
    (hc : isspace c = false) : w.bytes = [] := by
  obtain ⟨_ | ⟨b, bs⟩, hw⟩ := w
  · rfl
  · rw [List.all_cons, Bool.and_eq_true, (List.cons.inj h).1, hc] at hw
    exact absurd hw.1 Bool.false_ne_true

/-- Nor is there white space left where some has just been skipped. -/
theorem Ws.eq_nil_of_dropWhile {w : Ws} {c : UInt8} {s r : List UInt8} (hs : s = w.bytes ++ c :: r)
    (hc : isspace c = false) (hdrop : s.dropWhile isspace = s) : w.bytes = [] := by
  rw [hs, w.dropWhile_append_cons _ hc] at hdrop
  exact Ws.eq_nil_of_head hdrop.symm hc

/-- White space in front of the members goes to the first key. -/
theorem Cst.exists_members_after (w : Ws) (ms : Cst .members) :
    ∃ ms' : Cst .members, ms'.bytes = w.bytes ++ ms.bytes ∧ ms'.weight false = ms.weight false := by
  have hspace : ∀ key : Key, (w.bytes ++ key.before.bytes).all isspace = true := by
    intro key
    rw [List.all_append, w.space, key.before.space]
    rfl
  cases ms with
  | lastMember key v w' =>
    refine ⟨.lastMember { key with before := ⟨_, hspace key⟩ } v w', ?_, rfl⟩
    simp only [Cst.bytes, Key.bytes, List.append_assoc]
  | member key v w' ms =>
    refine ⟨.member { key with before := ⟨_, hspace key⟩ } v w' ms, ?_, rfl⟩
    simp only [Cst.bytes, Key.bytes, List.append_assoc]

namespace Trace

/-! ## 1. Tokens -/

theorem hexDigits_digits {n v w : Nat} {s s' : List UInt8} (h : hexDigits n v s = some (w, s')) :
    ∃ ds : List UInt8, ds.length = n ∧ (ds.all fun c => (hexDigit c).isSome) = true ∧
      s = ds ++ s' := by
  induction n generalizing v s with
  | zero =>
    simp only [hexDigits, Option.some.injEq, Prod.mk.injEq] at h
    exact ⟨[], rfl, rfl, h.2⟩
  | succ n ih =>
    cases s with
    | nil => cases h
    | cons c s =>
      simp only [hexDigits] at h
      split at h
      · cases h
      · next d hd =>
        obtain ⟨ds, hlen, hall, hs⟩ := ih h
        refine ⟨c :: ds, by rw [List.length_cons, hlen], ?_, by rw [hs]; rfl⟩
        rw [List.all_cons, hd, hall]
        rfl

/-- The escape of a high surrogate takes the escape of the low one behind it along. -/
theorem lowSurrogate_items {v : Nat} {s s' : List UInt8} (h : (lowSurrogate v s).2 = some s') :
    ∃ is : Str, s = is.flatMap Item.bytes ++ s' := by
  unfold lowSurrogate at h
  split at h
  · next htake =>
    split at h
    · cases h
    · next lo s₂ h₂ =>
      split at h
      · obtain ⟨ds, hlen, hall, hs⟩ := hexDigits_digits h₂
        cases h
        refine ⟨[.unicode ds ⟨hlen, hall⟩], ?_⟩
        rw [List.flatMap_singleton, Item.bytes, ← List.take_append_drop 2 s, htake, hs]
        rfl
      · cases h
        exact ⟨[], rfl⟩
  · cases h
    exact ⟨[], rfl⟩

theorem unicodeEscape_items {s s' : List UInt8} (h : (unicodeEscape s).2 = some s') :
    ∃ is : Str, backslash :: 0x75 :: s = is.flatMap Item.bytes ++ s' := by
  unfold unicodeEscape at h
  split at h
  · cases h
  · next v s₁ h₁ =>
    obtain ⟨ds, hlen, hall, hs⟩ := hexDigits_digits h₁
    have hrest : ∃ is : Str, s₁ = is.flatMap Item.bytes ++ s' := by
      split at h
      · exact lowSurrogate_items h
      · split at h <;> cases h <;> exact ⟨[], rfl⟩
    obtain ⟨is, his⟩ := hrest
    refine ⟨.unicode ds ⟨hlen, hall⟩ :: is, ?_⟩
    rw [List.flatMap_cons, Item.bytes, hs, his, List.append_assoc]
    rfl

theorem stringBody_items {s s' : List UInt8} (h : (stringBody s).2 = some s') :
    ∃ is : Str, s = is.flatMap Item.bytes ++ quote :: s' := by
  fun_induction stringBody s generalizing s' with
  | case1 | case3 | case9 => cases h
  | case2 s =>
    cases h
    exact ⟨[], rfl⟩
  | case4 s hnone => rw [hnone] at h; cases h
  | case5 s s₂ hsome _ ih =>
    obtain ⟨is, his⟩ := unicodeEscape_items hsome
    obtain ⟨is', his'⟩ := ih h
    refine ⟨is ++ is', ?_⟩
    rw [his, his', List.flatMap_append, List.append_assoc]
  | case6 e s he _ ih =>
    obtain ⟨is, his⟩ := ih h
    exact ⟨.escape e he :: is, by rw [his]; rfl⟩
  | case7 c s hq hb hlt ih =>
    obtain ⟨is, his⟩ := ih h
    exact ⟨.ascii c ⟨UInt8.lt_trans hlt (by decide), hq, hb⟩ :: is, by rw [his]; rfl⟩
  | case8 c s hq hb _ hlt ih =>
    obtain ⟨is, his⟩ := ih h
    exact ⟨.ascii c ⟨hlt, hq, hb⟩ :: is, by rw [his]; rfl⟩
  | case10 c s hq hb _ hlt hlen =>
    rename_i ih
    obtain ⟨is, his⟩ := ih h
    refine ⟨.multi c (s.take (utf8CharLen c - 1)) ⟨hlt, ?_⟩ :: is, ?_⟩
    · rw [List.length_take]
      omega
    · rw [List.flatMap_cons, Item.bytes, List.append_assoc, ← his, List.cons_append,
        List.take_append_drop]

theorem scanLit_prefix {l s s' : List UInt8} (h : (scanLit l s).2 = some s') : s = l ++ s' := by
  unfold scanLit at h
  split at h
  · next hpre =>
    cases h
    obtain ⟨t, rfl⟩ := hpre.1
    rw [List.drop_left]
  · cases h

/-! ## 2. Single steps -/

theorem token_eq_ok {f : List UInt8 → Scanned} {st st' : St}
    (h : token f st = some (some (), st')) : (f st.rest).2 = some st'.rest := by
  unfold token at h
  split at h
  · cases h
  · next cs rest hf => cases h; rw [hf]

theorem string_eq_ok {st st' : St} (h : string st = some (some (), st'))
    (hq : st.rest.head? = some quote) : ∃ s : Str, st.rest = s.bytes ++ st'.rest := by
  obtain ⟨r, hr⟩ := List.head?_eq_some_iff.mp hq
  have hbody := token_eq_ok h
  rw [hr, List.tail_cons] at hbody
  obtain ⟨s, hs⟩ := stringBody_items hbody
  refine ⟨s, ?_⟩
  rw [hr, hs, Str.bytes, List.cons_append, List.append_assoc]
  rfl

/-- A token, whatever its outcome, opens and closes nothing. -/
theorem token_counters {f : List UInt8 → Scanned} {r : Option Unit} {st st' : St}
    (h : token f st = some (r, st')) : st'.active = st.active ∧ st'.peak = st.peak := by
  unfold token at h
  split at h <;> cases h <;> exact ⟨rfl, rfl⟩

theorem close_cases {b : UInt8} {r : Option Unit} {st st' : St}
    (h : close b st = some (r, st')) : st'.peak = st.peak ∧
      (r = some () → ∃ w : Ws, st.rest = w.bytes ++ b :: st'.rest) := by
  simp only [close, skipWs, peek, Prog.modify_bind_apply, Prog.modifyGet_bind_apply] at h
  split at h
  · cases h
    exact ⟨rfl, fun h => by cases h⟩
  · next hb =>
    obtain ⟨s, hs⟩ := List.head?_eq_some_iff.mp (not_not.mp hb)
    simp only [next, leave, Prog.modify_bind_apply, Prog.modify_apply, Option.some.injEq,
      Prod.mk.injEq] at h
    obtain ⟨-, rfl⟩ := h
    obtain ⟨w, hw⟩ := exists_ws st.rest
    refine ⟨rfl, fun _ => ⟨w, ?_⟩⟩
    rw [hs, List.tail_cons, ← hs]
    exact hw

/-! ## 3. The recursive functions -/

/-- A call that returned has read a value, and a container has found room for itself. -/
def SoundValue (value : Nat → Prog St Unit) : Prop :=
  ∀ d st st', value d st = some (some (), st') →
    ∃ (w : Ws) (v : Cst .value), st.rest = w.bytes ++ (v.bytes ++ st'.rest) ∧
      (v.isContainer = true → d + v.weight false ≤ maxDepth + 1)

/-- A container that starts at its bracket. -/
def SoundContainer (container : Nat → Prog St Unit) (b : UInt8) : Prop :=
  ∀ d st st', container d st = some (some (), st') → st.rest.head? = some b →
    ∃ v : Cst .value, st.rest = v.bytes ++ st'.rest ∧ d + v.weight false ≤ maxDepth + 1

def SoundMembers (members : Nat → Prog St Unit) : Prop :=
  ∀ d st st', members d st = some (some (), st') → d ≤ maxDepth →
    ∃ ms : Cst .members, st.rest = ms.bytes ++ st'.rest ∧ d + ms.weight false ≤ maxDepth + 1

def SoundElements (elements : Nat → Prog St Unit) : Prop :=
  ∀ d st st', elements d st = some (some (), st') → d ≤ maxDepth →
    ∃ (gap : Ws) (es : Cst .elements), st.rest = gap.bytes ++ (es.bytes ++ st'.rest) ∧
      d + es.weight (!gap.bytes.isEmpty) ≤ maxDepth + 1

/-- Two states that differ in the commands given so far only. -/
def SameInput (st st' : St) : Prop :=
  st.rest = st'.rest ∧ st.active = st'.active ∧ st.peak = st'.peak

/-- The value of a member or an element is read one level deeper when a bracket is next. -/
theorem child_cases {value : Nat → Prog St Unit} {d : Nat} {r : Option Unit} {st st' : St}
    (h : child value d st = some (r, st')) :
    ∃ st₁ st₂, SameInput st st₁ ∧ SameInput st₂ st' ∧
      value (if st.rest.head? = some lbrace ∨ st.rest.head? = some lbracket then d + 1 else d) st₁ =
        some (r, st₂) := by
  rw [child, peek, Prog.modifyGet_bind_apply] at h
  split at h
  · next hhead =>
    rw [emit, Prog.modify_bind_apply] at h
    rw [if_pos hhead]
    exact ⟨{ st with cmds := st.cmds ++ [.flush] }, st', ⟨rfl, rfl, rfl⟩, ⟨rfl, rfl, rfl⟩, h⟩
  · next hhead =>
    rw [if_neg hhead]
    rcases Prog.bind_cases h with ⟨rfl, hfail⟩ | ⟨_, st₂, hrun, hflush⟩
    · exact ⟨st, st', ⟨rfl, rfl, rfl⟩, ⟨rfl, rfl, rfl⟩, hfail⟩
    · simp only [emit, Prog.modify_apply, Option.some.injEq, Prod.mk.injEq] at hflush
      obtain ⟨rfl, rfl⟩ := hflush
      exact ⟨st, st₂, ⟨rfl, rfl, rfl⟩, ⟨rfl, rfl, rfl⟩, hrun⟩

theorem child_eq_ok {value : Nat → Prog St Unit} (hvalue : SoundValue value) {d : Nat} {st st' : St}
    (h : child value d st = some (some (), st')) (hd : d ≤ maxDepth) :
    ∃ (gap : Ws) (v : Cst .value), st.rest = gap.bytes ++ (v.bytes ++ st'.rest) ∧
      d + Cst.childWeight (!gap.bytes.isEmpty) (v.weight false) ≤ maxDepth + 1 := by
  obtain ⟨st₁, st₂, ⟨hrest₁, -, -⟩, ⟨hrest₂, -, -⟩, hrun⟩ := child_cases h
  obtain ⟨w, v, hrest, hroom⟩ := hvalue _ _ _ hrun
  rw [← hrest₁, hrest₂] at hrest
  refine ⟨w, v, hrest, ?_⟩
  cases hcon : v.isContainer with
  | false =>
    rw [Cst.weight_scalar hcon]
    have hle := Cst.childWeight_le (!w.bytes.isEmpty) 0
    omega
  | true =>
    obtain ⟨c, s, hv, -, -, hcontainer⟩ := v.exists_bytes_eq_cons
    have hc := hcontainer.mp hcon
    have hroom := hroom hcon
    rw [hrest, hv] at hroom
    rcases hw : w.bytes with _ | ⟨sp, ws⟩
    · rw [hw, if_pos (by simpa using hc)] at hroom
      simp only [Cst.childWeight, List.isEmpty_nil, Bool.not_true, Bool.false_eq_true, if_false]
      omega
    · refine Nat.le_trans ?_ hroom
      simp only [Cst.childWeight, List.isEmpty_cons, Bool.not_false, if_true]
      exact Nat.add_le_add_right (by split <;> omega) _

section Loops

variable {loop : Prog St Unit} {b : UInt8} {r : Option Unit} {st st' : St}

/-- What follows the value of a member or an element: a comma and the rest of the loop, or an end
that opens nothing. -/
theorem after_child_cases
    (h : (do
      skipWs
      let c ← peek
      if c = some comma then do
        next
        loop
      else close b) st = some (r, st')) :
    (st'.peak = st.peak ∧ (r = some () → ∃ w : Ws, st.rest = w.bytes ++ b :: st'.rest)) ∨
      ∃ (w : Ws) (s : List UInt8), st.rest = w.bytes ++ comma :: s ∧
        loop { st with rest := s } = some (r, st') := by
  simp only [skipWs, peek, Prog.modify_bind_apply, Prog.modifyGet_bind_apply] at h
  obtain ⟨w, hw⟩ := exists_ws st.rest
  split at h
  · next hcomma =>
    obtain ⟨s, hs⟩ := List.head?_eq_some_iff.mp hcomma
    simp only [next, Prog.modify_bind_apply, hs, List.tail_cons] at h
    exact .inr ⟨w, s, by rw [← hs]; exact hw, h⟩
  · obtain ⟨hpeak, hok⟩ := close_cases h
    refine .inl ⟨hpeak, fun hr => ?_⟩
    obtain ⟨w', hw'⟩ := hok hr
    simp only at hw'
    refine ⟨⟨w.bytes ++ w'.bytes, by rw [List.all_append, w.space, w'.space]; rfl⟩, ?_⟩
    rw [hw, hw', List.append_assoc]

/-- A container: closed at once, or its loop was run behind the bracket. -/
theorem container_cases
    (h : (do
      enter
      next
      skipWs
      let c ← peek
      if c = some b then do
        next
        leave
      else loop) st = some (r, st')) :
    (st'.peak = max st.peak (st.active + 1) ∧
        ∃ w : Ws, st.rest.tail = w.bytes ++ b :: st'.rest) ∨
      ∃ st₁, st₁.rest.dropWhile isspace = st₁.rest ∧ st₁.active = st.active + 1 ∧
        st₁.peak = max st.peak (st.active + 1) ∧ loop st₁ = some (r, st') ∧
        ∃ w : Ws, st.rest.tail = w.bytes ++ st₁.rest := by
  simp only [enter, next, skipWs, peek, Prog.modify_bind_apply, Prog.modifyGet_bind_apply] at h
  obtain ⟨w, hw⟩ := exists_ws st.rest.tail
  split at h
  · next hb =>
    obtain ⟨s, hs⟩ := List.head?_eq_some_iff.mp hb
    simp only [leave, Prog.modify_bind_apply, Prog.modify_apply, Option.some.injEq,
      Prod.mk.injEq] at h
    obtain ⟨-, rfl⟩ := h
    refine .inl ⟨rfl, w, ?_⟩
    rw [hs, List.tail_cons, ← hs]
    exact hw
  · exact .inr ⟨_, List.dropWhile_idempotent _ _, rfl, rfl, h, w, hw⟩

end Loops

/-- The key of a member: what was read up to its value, unless something was missing. -/
theorem key_cases {m : Prog St Unit} {d : Nat} {r : Option Unit} {st st' : St}
    (h : (do
      skipWs
      let c ← peek
      if c ≠ some quote then .fail
      else do
        emit [.indent d]
        string
        skipWs
        let c ← peek
        if c ≠ some colon then .fail
        else do
          next
          skipWs
          emit [.str (Ascii.bytes ": ")]
          m) st = some (r, st')) :
    (r = none ∧ st'.peak = st.peak) ∨
      ∃ (key : Key) (st₁ : St), st.rest = key.bytes ++ st₁.rest ∧
        st₁.rest.dropWhile isspace = st₁.rest ∧ st₁.active = st.active ∧ st₁.peak = st.peak ∧
        m st₁ = some (r, st') := by
  simp only [skipWs, peek, Prog.modify_bind_apply, Prog.modifyGet_bind_apply] at h
  obtain ⟨before, hbefore⟩ := exists_ws st.rest
  split at h
  · cases h
    exact .inl ⟨rfl, rfl⟩
  next hq =>
  rw [emit, Prog.modify_bind_apply] at h
  rcases Prog.bind_cases h with ⟨rfl, hfail⟩ | ⟨_, st₁, hstring, h⟩
  · exact .inl ⟨rfl, (token_counters hfail).2⟩
  obtain ⟨name, hname⟩ := string_eq_ok hstring (not_not.mp hq)
  obtain ⟨hactive, hpeak⟩ := token_counters hstring
  obtain ⟨after, hafter⟩ := exists_ws st₁.rest
  simp only [Prog.modify_bind_apply, Prog.modifyGet_bind_apply] at h
  split at h
  · cases h
    exact .inl ⟨rfl, hpeak⟩
  next hcolon =>
  obtain ⟨s, hs⟩ := List.head?_eq_some_iff.mp (not_not.mp hcolon)
  obtain ⟨gap, hgap⟩ := exists_ws s
  simp only [next, emit, Prog.modify_bind_apply, hs, List.tail_cons] at h
  refine .inr ⟨⟨before, name, after, gap⟩,
    { st₁ with rest := s.dropWhile isspace, cmds := st₁.cmds ++ [.str (Ascii.bytes ": ")] },
    ?_, ?_, hactive, hpeak, h⟩
  · simp only [Key.bytes, List.append_assoc, List.cons_append]
    rw [← hgap, ← hs, ← hafter, ← hname]
    exact hbefore
  · exact List.dropWhile_idempotent _ _

theorem sound_value {fuel : Nat} (hobject : SoundContainer (object fuel) lbrace)
    (harray : SoundContainer (array fuel) lbracket) : SoundValue (value (fuel + 1)) := by
  intro d st st' h
  rw [value] at h
  simp only [skipWs, peek, Prog.modify_bind_apply, Prog.modifyGet_bind_apply] at h
  obtain ⟨w, hw⟩ := exists_ws st.rest
  refine ⟨w, ?_⟩
  suffices hv : ∃ v : Cst .value, st.rest.dropWhile isspace = v.bytes ++ st'.rest ∧
      (v.isContainer = true → d + v.weight false ≤ maxDepth + 1) by
    obtain ⟨v, hrest, hroom⟩ := hv
    exact ⟨v, by rw [← hrest]; exact hw, hroom⟩
  rcases hc : (st.rest.dropWhile isspace).head? with _ | c
  · rw [hc] at h
    cases h
  obtain ⟨r, hr⟩ := List.head?_eq_some_iff.mp hc
  rw [hc] at h
  simp only at h
  -- the containers, then the string, the literals and the number, in the order of the tests
  split at h
  · next hobj =>
    obtain ⟨v, hrest, hroom⟩ := hobject d _ st' h (hobj ▸ hc)
    exact ⟨v, hrest, fun _ => hroom⟩
  split at h
  · next harr =>
    obtain ⟨v, hrest, hroom⟩ := harray d _ st' h (harr ▸ hc)
    exact ⟨v, hrest, fun _ => hroom⟩
  split at h
  · next hq =>
    obtain ⟨s, hs⟩ := string_eq_ok h (hq ▸ hc)
    exact ⟨.string s, hs, fun h => by cases h⟩
  split at h
  · exact ⟨.literal .true, scanLit_prefix (token_eq_ok h), fun h => by cases h⟩
  split at h
  · exact ⟨.literal .false, scanLit_prefix (token_eq_ok h), fun h => by cases h⟩
  split at h
  · exact ⟨.literal .null, scanLit_prefix (token_eq_ok h), fun h => by cases h⟩
  split at h
  · next hnum =>
    have hscan := token_eq_ok h
    simp only [scanNumber, hr, Option.some.injEq,
      List.dropWhile_cons_of_pos (isNumChar_of_start c hnum)] at hscan
    refine ⟨.number ⟨c, r.takeWhile isNumChar, hnum, List.all_takeWhile⟩, ?_, fun h => by cases h⟩
    rw [hr, ← hscan, Cst.bytes, Number.bytes, List.cons_append,
      List.takeWhile_append_dropWhile]
  · cases h

theorem sound_object {fuel : Nat} (hmembers : SoundMembers (members fuel)) :
    SoundContainer (object (fuel + 1)) lbrace := by
  intro d st st' h hhead
  rw [object] at h
  split at h
  · cases h
  next hdepth =>
  obtain ⟨r, hr⟩ := List.head?_eq_some_iff.mp hhead
  rcases container_cases h with ⟨-, w, hempty⟩ | ⟨st₁, -, -, -, hloop, w, htail⟩
  · rw [hr, List.tail_cons] at hempty
    refine ⟨.emptyObject w, ?_, by simp only [Cst.weight]; omega⟩
    rw [hr, hempty, Cst.bytes, List.cons_append, List.append_assoc]
    rfl
  · obtain ⟨ms, hms, hroom⟩ := hmembers d st₁ st' hloop (by omega)
    obtain ⟨ms', hbytes, hweight⟩ := Cst.exists_members_after w ms
    refine ⟨.object ms', ?_, by rw [Cst.weight, hweight]; exact hroom⟩
    rw [hr, List.tail_cons, hms, ← List.append_assoc, ← hbytes] at htail
    rw [hr, htail]
    rfl

theorem sound_members {fuel : Nat} (hvalue : SoundValue (value fuel))
    (hmembers : SoundMembers (members fuel)) : SoundMembers (members (fuel + 1)) := by
  intro d st st' h hd
  rw [members] at h
  rcases key_cases h with ⟨hnone, -⟩ | ⟨key, st₁, hkey, hdrop, -, -, h⟩
  · cases hnone
  obtain ⟨_, st₂, hchild, h⟩ := Prog.bind_eq_ok h
  obtain ⟨gap, v, hv, hroom⟩ := child_eq_ok hvalue hchild hd
  obtain ⟨c, cs, hcs, hsp, -⟩ := v.exists_bytes_eq_cons
  -- white space before the value was skipped with the colon
  have hgap : gap.bytes = [] := Ws.eq_nil_of_dropWhile (by rw [hv, hcs]; rfl) hsp hdrop
  rw [hgap, List.nil_append] at hv
  rw [hgap, List.isEmpty_nil, Bool.not_true] at hroom
  rcases after_child_cases h with ⟨-, hlast⟩ | ⟨w, s, hcomma, hloop⟩
  · obtain ⟨w, hlast⟩ := hlast rfl
    refine ⟨.lastMember key v w, ?_, hroom⟩
    rw [hkey, hv, hlast, Cst.bytes]
    simp only [List.append_assoc, List.cons_append, List.nil_append]
  · obtain ⟨ms, hms, hroom'⟩ := hmembers d _ st' hloop hd
    refine ⟨.member key v w ms, ?_, by rw [Cst.weight]; omega⟩
    simp only at hms
    rw [hkey, hv, hcomma, hms, Cst.bytes]
    simp only [List.append_assoc, List.cons_append]

theorem sound_array {fuel : Nat} (helements : SoundElements (elements fuel)) :
    SoundContainer (array (fuel + 1)) lbracket := by
  intro d st st' h hhead
  rw [array] at h
  split at h
  · cases h
  next hdepth =>
  obtain ⟨r, hr⟩ := List.head?_eq_some_iff.mp hhead
  rcases container_cases h with ⟨-, w, hempty⟩ | ⟨st₁, hdrop, -, -, hloop, w, htail⟩
  · rw [hr, List.tail_cons] at hempty
    refine ⟨.emptyArray w, ?_, by simp only [Cst.weight]; omega⟩
    rw [hr, hempty, Cst.bytes, List.cons_append, List.append_assoc]
    rfl
  · obtain ⟨gap, es, hes, hroom⟩ := helements d st₁ st' hloop (by omega)
    obtain ⟨c, cs, hcs, hsp, -⟩ := es.exists_elements_bytes
    -- white space before the first element was skipped with the bracket
    have hgap : gap.bytes = [] := Ws.eq_nil_of_dropWhile (s := st₁.rest)
      (by rw [hes, hcs]; rfl) hsp hdrop
    rw [hgap, List.nil_append] at hes
    rw [hgap, List.isEmpty_nil, Bool.not_true] at hroom
    refine ⟨.array w es, ?_, by simp only [Cst.weight]; omega⟩
    rw [hr, List.tail_cons, hes] at htail
    rw [hr, htail, Cst.bytes, List.cons_append, List.append_assoc]

theorem sound_elements {fuel : Nat} (hvalue : SoundValue (value fuel))
    (helements : SoundElements (elements fuel)) : SoundElements (elements (fuel + 1)) := by
  intro d st st' h hd
  rw [elements] at h
  simp only [emit, Prog.modify_bind_apply] at h
  obtain ⟨_, st₂, hchild, h⟩ := Prog.bind_eq_ok h
  obtain ⟨gap, v, hv, hroom⟩ := child_eq_ok hvalue hchild hd
  rcases after_child_cases h with ⟨-, hlast⟩ | ⟨w, s, hcomma, hloop⟩
  · obtain ⟨w, hlast⟩ := hlast rfl
    refine ⟨gap, .lastElement v w, ?_, hroom⟩
    simp only [hlast] at hv
    rw [hv, Cst.bytes]
    simp only [List.append_assoc, List.cons_append, List.nil_append]
  · obtain ⟨gap', es, hes, hroom'⟩ := helements d _ st' hloop hd
    refine ⟨gap, .element v w gap' es, ?_, by rw [Cst.weight]; omega⟩
    simp only at hv hes
    rw [hv, hcomma, hes, Cst.bytes]
    simp only [List.append_assoc, List.cons_append]

/-- The tree of each recursive call that returned. -/
theorem sound_parse (fuel : Nat) :
    SoundValue (value fuel) ∧ SoundContainer (object fuel) lbrace ∧
      SoundMembers (members fuel) ∧ SoundContainer (array fuel) lbracket ∧
      SoundElements (elements fuel) := by
  induction fuel with
  | zero => refine ⟨?_, ?_, ?_, ?_, ?_⟩ <;> intro _ _ _ h <;> cases h
  | succ fuel ih =>
    obtain ⟨hvalue, hobject, hmembers, harray, helements⟩ := ih
    exact ⟨sound_value hobject harray, sound_object hmembers, sound_members hvalue hmembers,
      sound_array helements, sound_elements hvalue helements⟩

/-- A run that returned 0 has read a text, and found room for its containers. -/
theorem run_eq_ok {input : List UInt8} {st : St} (h : run input = some (some (), st)) :
    ∃ t : Text, t.bytes = input ∧ t.value.weight false ≤ maxDepth + 1 := by
  simp only [run, text, skipWs, peek, Prog.modify_bind_apply, Prog.modifyGet_bind_apply] at h
  split at h
  · cases h
  obtain ⟨_, st₁, hvalue, h⟩ := Prog.bind_eq_ok h
  obtain ⟨before, hbefore⟩ := exists_ws input
  obtain ⟨w, v, hv, hroom⟩ := (sound_parse _).1 _ _ _ hvalue
  obtain ⟨after, hafter⟩ := exists_ws st₁.rest
  simp only [Prog.modify_bind_apply, Prog.modifyGet_bind_apply] at h
  split at h
  · cases h
  next hend =>
  rw [List.head?_eq_none_iff.mp (not_not.mp hend), List.append_nil] at hafter
  have hspace : (before.bytes ++ w.bytes).all isspace = true := by
    rw [List.all_append, before.space, w.space]
    rfl
  refine ⟨⟨⟨_, hspace⟩, v, after⟩, ?_, ?_⟩
  · have hstart : (St.start input).rest = input := rfl
    simp only [hstart, hafter] at hv
    rw [Text.bytes, List.append_assoc, ← hv]
    exact hbefore.symm
  · cases hcon : v.isContainer with
    | true =>
      have h := hroom hcon
      rwa [Nat.zero_add] at h
    | false =>
      rw [Cst.weight_scalar hcon]
      exact Nat.zero_le _

end Trace

/-! ## 4. The language of the converter -/

/-- The converter accepts a text exactly when the depth argument has room for its containers. -/
theorem Stream.status_eq_zero_iff {input : List UInt8} {e : Exit} (he : main input = some e) :
    e.status = 0 ↔ ∃ t : Text, t.bytes = input ∧ t.value.weight false ≤ maxDepth + 1 := by
  obtain ⟨r, st, hrun⟩ := Trace.exists_run input
  obtain ⟨e', he', hout, -⟩ := main_outcome hrun
  obtain rfl : e' = e := Option.some.inj (he'.symm.trans he)
  have hstatus : e'.status = if r.isSome then 0 else 1 := congrArg Outcome.status hout
  rw [hstatus]
  constructor
  · intro h0
    cases r with
    | none => cases h0
    | some u => exact Trace.run_eq_ok hrun
  · rintro ⟨t, rfl, hd⟩
    rw [Trace.run_text t hd] at hrun
    cases hrun
    rfl

/-- What a text leaves behind for whose containers there is room. -/
theorem Stream.main_text (t : Text) (hweight : t.value.weight false ≤ maxDepth + 1) :
    ∃ e, main t.bytes = some e ∧ e.status = 0 ∧
      e.stdout = (execAll (t.value.cmds false 0 ++ [.flush]) .empty).stdout := by
  obtain ⟨e, he, hout, -⟩ := main_outcome (Trace.run_text t hweight)
  exact ⟨e, he, congrArg Outcome.status hout, congrArg Outcome.stdout hout⟩

/-- The converter accepts nothing but texts of the grammar, and all of those in which at most 25
containers are open at once. -/
theorem recognises_grammar (input : List UInt8) :
    ∃ e, Stream.main input = some e ∧
      (e.status = 0 → ∃ t : Text, t.bytes = input) ∧
      (∀ t : Text, t.bytes = input → t.nest ≤ maxDepth + 1 → e.status = 0) := by
  obtain ⟨r, st, hrun⟩ := Trace.exists_run input
  obtain ⟨e, he, -⟩ := Stream.main_outcome hrun
  refine ⟨e, he, fun h0 => ?_, fun t ht hnest => ?_⟩
  · obtain ⟨t, ht, -⟩ := (Stream.status_eq_zero_iff he).mp h0
    exact ⟨t, ht⟩
  · have hweight := t.value.weight_le_nest false
    exact (Stream.status_eq_zero_iff he).mpr ⟨t, ht, Nat.le_trans hweight hnest⟩

end J2t
