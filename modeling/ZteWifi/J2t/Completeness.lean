import ZteWifi.J2t.Syntax

/-!
# What the grammar derives, the converter reads

A tree is read with any input behind it, provided that a number or a literal ends where the tree
says.  The induction is on the tree; each case runs the parser over the bytes of one production.
-/

open Ascii LineBuf

namespace J2t

/-! ## 1. Tokens -/

/-- The rest of the input does not go on with the number or literal before it. -/
def Follow (s : List UInt8) : Prop := ∀ c, s.head? = some c → isalnum c = false ∧ isNumChar c = false

theorem follow_nil : Follow [] := nofun

theorem follow_cons {c : UInt8} {s : List UInt8} (ha : isalnum c = false)
    (hn : isNumChar c = false) : Follow (c :: s) := by
  rintro _ ⟨⟩
  exact ⟨ha, hn⟩

theorem not_word_of_isspace :
    ∀ c : UInt8, isspace c = true → isalnum c = false ∧ isNumChar c = false := by
  decide +kernel

theorem Ws.follow (w : Ws) {s : List UInt8} (hs : Follow s) : Follow (w.bytes ++ s) := by
  obtain ⟨_ | ⟨c, cs⟩, hw⟩ := w
  · exact hs
  · rw [List.all_cons, Bool.and_eq_true] at hw
    obtain ⟨ha, hn⟩ := not_word_of_isspace c hw.1
    exact follow_cons ha hn

theorem Ws.dropWhile_append (w : Ws) (s : List UInt8) :
    (w.bytes ++ s).dropWhile isspace = s.dropWhile isspace := by
  obtain ⟨cs, hw⟩ := w
  induction cs with
  | nil => rfl
  | cons c cs ih =>
    rw [List.all_cons, Bool.and_eq_true] at hw
    rw [List.cons_append, List.dropWhile_cons_of_pos hw.1]
    exact ih hw.2

theorem Ws.dropWhile_append_cons (w : Ws) {c : UInt8} (s : List UInt8) (hc : isspace c = false) :
    (w.bytes ++ c :: s).dropWhile isspace = c :: s := by
  rw [w.dropWhile_append, List.dropWhile_cons_of_neg (by rw [hc]; exact Bool.false_ne_true)]

namespace Trace

theorem hexDigits_append (ds s : List UInt8) (v : Nat)
    (h : ds.all (fun c => (hexDigit c).isSome) = true) :
    hexDigits ds.length v (ds ++ s) =
      some (ds.foldl (fun v c => v * 16 + (hexDigit c).getD 0) v, s) := by
  induction ds generalizing v with
  | nil => rfl
  | cons c ds ih =>
    rw [List.all_cons, Bool.and_eq_true] at h
    obtain ⟨d, hd⟩ := Option.isSome_iff_exists.mp h.1
    simp only [List.length_cons, List.cons_append, hexDigits, hd, List.foldl_cons, Option.getD_some]
    exact ih _ h.2

/-- The four digits of an escape. -/
theorem hexDigits_escape {ds : List UInt8}
    (h : ds.length = 4 ∧ ds.all (fun c => (hexDigit c).isSome) = true) (s : List UInt8) :
    hexDigits 4 0 (ds ++ s) = some (hexValue ds, s) := by
  have heq := hexDigits_append ds s 0 h.2
  rwa [h.1] at heq

/-- The first two bytes of what is left of a string, when it is no `\u` escape. -/
theorem take_two_ne {i : Item} (hi : ∀ ds h, i ≠ .unicode ds h) (s : List UInt8) :
    (i.bytes ++ s).take 2 ≠ [backslash, 0x75] := by
  cases i with
  | escape c h => simpa [Item.bytes] using h
  | unicode ds h => exact absurd rfl (hi ds h)
  | ascii c h =>
    intro heq
    exact h.2.2 (List.cons.inj heq).1
  | multi c cont h =>
    intro heq
    exact h.1 ((List.cons.inj heq).1 ▸ by decide)

/-- No `\u` escape stands at the end of the items before one that `k` starts with. -/
def Apart (s : Str) (k : List UInt8) : Prop :=
  ∀ p ds h, s = p ++ [.unicode ds h] → k.take 2 ≠ [backslash, 0x75]

theorem Apart.tail {i : Item} {s : Str} {k : List UInt8} (h : Apart (i :: s) k) : Apart s k :=
  fun p ds hds heq => h (i :: p) ds hds (congrArg (i :: ·) heq)

/-- The items of a string, before any bytes and after the high surrogate `v`. -/
theorem stringBody_items_append (s : Str) {k : List UInt8} (hk : Apart s k) :
    stringBody (s.flatMap Item.bytes ++ k) =
      (Str.cmdsAfter none s ++ (stringBody k).1, (stringBody k).2) ∧
    ((s = [] → k.take 2 ≠ [backslash, 0x75]) → ∀ v, ∃ k' cs,
      lowSurrogate v (s.flatMap Item.bytes ++ k) = (cs, some k') ∧
        cs ++ (stringBody k').1 = Str.cmdsAfter (some v) s ++ (stringBody k).1 ∧
          (stringBody k').2 = (stringBody k).2) := by
  induction s with
  | nil =>
    refine ⟨rfl, fun hne v => ⟨k, [], ?_, rfl, rfl⟩⟩
    rw [List.flatMap_nil, List.nil_append, lowSurrogate, if_neg (hne rfl)]
  | cons i s ih =>
    obtain ⟨ihbody, ihlow⟩ := ih hk.tail
    have hbody : stringBody ((i :: s).flatMap Item.bytes ++ k) =
        (Str.cmdsAfter none (i :: s) ++ (stringBody k).1, (stringBody k).2) := by
      rw [List.flatMap_cons, List.append_assoc]
      cases i with
      | escape c h =>
        rw [stringBody.eq_def]
        simp only [Item.bytes, List.cons_append, List.nil_append, if_true]
        rw [if_neg (by decide), if_neg h, ihbody, ← List.append_assoc]
        rfl
      | unicode ds h =>
        simp only [Item.bytes, List.cons_append, stringBody_unicode, Str.cmdsAfter]
        have hds := hexDigits_escape h (s.flatMap Item.bytes ++ k)
        have hlast : s = [] → k.take 2 ≠ [backslash, 0x75] := fun hnil =>
          hk [] ds h (congrArg (Item.unicode ds h :: ·) hnil)
        -- the escape after a high surrogate is looked at before the string goes on
        by_cases hhi : isHighSurrogate (hexValue ds)
        · obtain ⟨k', cs, hlow, hcmds, hrest⟩ := ihlow hlast (hexValue ds)
          rw [unicodeEscape, hds]
          simp only [if_pos hhi, hlow, hcmds, hrest]
        · rw [unicodeEscape, hds]
          simp only [if_neg hhi]
          by_cases hlo : isLowSurrogate (hexValue ds)
          · simp only [if_pos hlo, ihbody, List.nil_append]
          · simp only [if_neg hlo, ihbody, List.cons_append, List.nil_append]
      | ascii c h =>
        rw [stringBody.eq_def]
        simp only [Item.bytes, List.cons_append, List.nil_append, if_neg h.2.1, if_neg h.2.2,
          if_pos h.1, ihbody, Str.cmdsAfter]
        split <;> rfl
      | multi c cont h =>
        -- none of the tests before the last branch holds of a byte beyond ASCII
        have hlt : ¬ c < 0x20 := fun hc => h.1 (UInt8.lt_trans hc (by decide))
        have hq : c ≠ quote := fun hc => h.1 (hc ▸ by decide)
        have hb : c ≠ backslash := fun hc => h.1 (hc ▸ by decide)
        have hlen : ¬ (cont ++ (s.flatMap Item.bytes ++ k)).length < cont.length := by
          rw [List.length_append]
          omega
        rw [stringBody.eq_def]
        simp only [Item.bytes, List.cons_append, if_neg hq, if_neg hb, if_neg hlt, if_neg h.1,
          ← h.2, if_neg hlen, List.drop_left, List.take_left, ihbody, Str.cmdsAfter,
          List.append_assoc]
    refine ⟨hbody, fun _ v => ?_⟩
    -- only the escape of a low surrogate is taken together with the high one before it
    by_cases hpair : ∃ ds h, i = .unicode ds h ∧ isLowSurrogate (hexValue ds)
    · obtain ⟨ds, h, rfl, hlo⟩ := hpair
      have hds := hexDigits_escape h (s.flatMap Item.bytes ++ k)
      have hhi : ¬ isHighSurrogate (hexValue ds) := by omega
      refine ⟨_, [.utf8 (surrogatePair v (hexValue ds))], ?_, ?_, by rw [ihbody]⟩
      · rw [List.flatMap_cons, List.append_assoc, Item.bytes, List.cons_append, List.cons_append,
          lowSurrogate_escape, hds]
        simp only [if_pos hlo]
      · simp only [ihbody, Str.cmdsAfter, if_neg hhi, if_pos hlo, List.cons_append,
          List.nil_append]
    · refine ⟨_, [], ?_, ?_, by rw [hbody]⟩
      · rw [List.flatMap_cons, List.append_assoc]
        cases i with
        | unicode ds h =>
          have hds := hexDigits_escape h (s.flatMap Item.bytes ++ k)
          have hlo : ¬ isLowSurrogate (hexValue ds) := fun hlo => hpair ⟨ds, h, rfl, hlo⟩
          rw [Item.bytes, List.cons_append, List.cons_append, lowSurrogate_escape, hds]
          simp only [if_neg hlo]
        | escape | ascii | multi => rw [lowSurrogate, if_neg (take_two_ne (by simp) _)]
      · rw [hbody, List.nil_append]
        cases i with
        | unicode ds h =>
          have hlo : ¬ isLowSurrogate (hexValue ds) := fun hlo => hpair ⟨ds, h, rfl, hlo⟩
          simp only [Str.cmdsAfter, if_neg hlo]
        | escape | ascii | multi => rfl

/-- A string with its closing quote. -/
theorem stringBody_bytes (s : Str) (k : List UInt8) :
    stringBody (s.flatMap Item.bytes ++ quote :: k) = (Str.cmdsAfter none s, some k) := by
  have hquote : stringBody (quote :: k) = ([], some k) := by
    rw [stringBody.eq_def]
    rfl
  have hapart : Apart s (quote :: k) := fun _ _ _ _ heq =>
    absurd (List.cons.inj heq).1 (by decide)
  rw [(stringBody_items_append s hapart).1, hquote, List.append_nil]

theorem scanLit_bytes (l : Literal) {k : List UInt8}
    (hk : ∀ c, k.head? = some c → isalnum c = false) :
    scanLit l.bytes (l.bytes ++ k) = ([.str l.bytes], some k) := by
  have hword : ¬ ((l.bytes ++ k).drop l.bytes.length).head?.any isalnum = true := by
    rw [List.drop_left]
    cases h : k.head? with
    | none => exact Bool.false_ne_true
    | some c => rw [Option.any_some, hk c h]; exact Bool.false_ne_true
  rw [scanLit, if_pos ⟨List.prefix_append _ _, hword⟩, List.drop_left]

theorem scanNumber_bytes (n : Number) {k : List UInt8}
    (hk : ∀ c, k.head? = some c → isNumChar c = false) :
    scanNumber (n.bytes ++ k) = (n.bytes.map .byte, some k) := by
  have hstop : k.takeWhile isNumChar = [] ∧ k.dropWhile isNumChar = k := by
    cases k with
    | nil => exact ⟨rfl, rfl⟩
    | cons c k =>
      have hc : ¬ isNumChar c = true := by rw [hk c rfl]; exact Bool.false_ne_true
      exact ⟨List.takeWhile_cons_of_neg hc, List.dropWhile_cons_of_neg hc⟩
  rw [scanNumber, List.takeWhile_append_of_pos (n.isNumChar_of_mem),
    List.dropWhile_append_of_pos (n.isNumChar_of_mem), hstop.1, hstop.2, List.append_nil]

/-! ## 2. Reading -/

/-- The state after reading up to `k` with commands `cs`, when `closed` containers have been closed
and `nest` more than at the start have been open on the way. -/
def St.after (st : St) (k : List UInt8) (cs : List Cmd) (closed nest : Nat) : St :=
  ⟨k, st.cmds ++ cs, st.active - closed, max st.peak (st.active + nest)⟩

def Reads (m : Prog St Unit) (st : St) (k : List UInt8) (cs : List Cmd) (closed nest : Nat) :
    Prop :=
  st.active ≤ st.peak → m st = some (some (), st.after k cs closed nest)

section Rules

variable {m n : Prog St Unit} {st : St} {k k' : List UInt8} {cs cs' : List Cmd}
  {closed nest nest' : Nat}

theorem Reads.bind (h : Reads m st k cs 0 nest)
    (h' : Reads n (st.after k cs 0 nest) k' cs' closed nest') :
    Reads (m >>= fun _ => n) st k' (cs ++ cs') closed (max nest nest') := by
  intro hp
  rw [Prog.bind_of_ok (h hp), h' (by simp only [St.after]; omega)]
  simp only [St.after, List.append_assoc, Nat.sub_zero, ← Nat.add_max_add_left, max_assoc]

theorem Reads.congr (h : Reads m st k cs closed nest) (hcs : cs = cs') (hn : nest = nest') :
    Reads m st k cs' closed nest' := hcs ▸ hn ▸ h

/-- A first step that opens no container. -/
theorem Reads.step (h : Reads m st k cs 0 0) (h' : Reads n (st.after k cs 0 0) k' cs' closed nest) :
    Reads (m >>= fun _ => n) st k' (cs ++ cs') closed nest :=
  (h.bind h').congr rfl (Nat.zero_max _)

theorem Reads.peek {f : Option UInt8 → Prog St Unit} (h : Reads (f st.rest.head?) st k cs closed nest) :
    Reads (Trace.peek >>= f) st k cs closed nest := h

theorem reads_token {f : List UInt8 → Scanned} (h : f st.rest = (cs, some k)) :
    Reads (token f) st k cs 0 0 := by
  intro hp
  rw [token, h]
  simp only [St.after, Nat.sub_zero, Nat.add_zero, Nat.max_eq_left hp]

theorem reads_dropWhile (hrest : st.rest.dropWhile isspace = k) : Reads skipWs st k [] 0 0 := by
  intro hp
  rw [skipWs, Prog.modify_apply, hrest]
  simp only [St.after, List.append_nil, Nat.sub_zero, Nat.add_zero, Nat.max_eq_left hp]

theorem reads_skipWs (w : Ws) {c : UInt8} {s : List UInt8} (hrest : st.rest = w.bytes ++ c :: s)
    (hc : isspace c = false) : Reads skipWs st (c :: s) [] 0 0 :=
  reads_dropWhile (by rw [hrest, w.dropWhile_append_cons s hc])

theorem reads_emit : Reads (emit cs) st st.rest cs 0 0 := by
  intro hp
  simp only [emit, Prog.modify_apply, St.after, Nat.sub_zero, Nat.add_zero, Nat.max_eq_left hp]

theorem reads_next : Reads next st st.rest.tail [] 0 0 := by
  intro hp
  simp only [next, Prog.modify_apply, St.after, List.append_nil, Nat.sub_zero, Nat.add_zero,
    Nat.max_eq_left hp]

theorem reads_leave : Reads leave st st.rest [] 1 0 := by
  intro hp
  simp only [leave, Prog.modify_apply, St.after, List.append_nil, Nat.add_zero,
    Nat.max_eq_left hp]

end Rules

/-! ## 3. Trees -/

@[simp] theorem St.after_rest (st : St) (k : List UInt8) (cs : List Cmd) (closed nest : Nat) :
    (st.after k cs closed nest).rest = k := rfl

theorem follow_sep (w : Ws) {c : UInt8} (hc : c = comma ∨ c = rbrace ∨ c = rbracket)
    (s : List UInt8) : Follow (w.bytes ++ c :: s) := by
  refine w.follow ?_
  rcases hc with rfl | rfl | rfl <;> exact follow_cons (by decide) (by decide)

theorem reads_close (w : Ws) {b : UInt8} {st : St} {k : List UInt8}
    (hrest : st.rest = w.bytes ++ b :: k) (hb : isspace b = false) :
    Reads (close b) st k [] 1 0 := by
  refine (reads_skipWs w hrest hb).bind (Reads.peek ?_)
  rw [St.after_rest, List.head?_cons, if_neg (not_not.mpr rfl)]
  exact reads_next.bind reads_leave

/-- The value is read at every depth that leaves room for it. -/
def ReadsValue (fuel : Nat) (v : Cst .value) (k : List UInt8) : Prop :=
  ∀ (w : Ws) (d : Nat) (st : St), d + v.weight false ≤ maxDepth + 1 →
    st.rest = w.bytes ++ (v.bytes ++ k) → Reads (value fuel d) st k (v.cmds false d) 0 v.nest

theorem reads_child {fuel : Nat} {v : Cst .value} {k : List UInt8} (hv : ReadsValue fuel v k)
    (gap : Ws) (d : Nat) (st : St)
    (hd : d + Cst.childWeight (!gap.bytes.isEmpty) (v.weight false) ≤ maxDepth + 1)
    (hrest : st.rest = gap.bytes ++ (v.bytes ++ k)) :
    Reads (child (value fuel) d) st k
      (Cst.childCmds (v.isContainer && gap.bytes.isEmpty) d (v.cmds false)) 0 v.nest := by
  have hflat : d + v.weight false ≤ maxDepth + 1 → ¬ (st.rest.head? = some lbrace ∨
      st.rest.head? = some lbracket) → (v.isContainer && gap.bytes.isEmpty) = false →
      Reads (child (value fuel) d) st k
        (Cst.childCmds (v.isContainer && gap.bytes.isEmpty) d (v.cmds false)) 0 v.nest := by
    intro hd hhead hdeep
    refine Reads.peek ?_
    rw [if_neg hhead, hdeep]
    exact ((hv gap d st hd hrest).bind reads_emit).congr rfl (Nat.max_zero _)
  obtain ⟨c, s, hbytes, -, -, hcontainer⟩ := v.exists_bytes_eq_cons
  rcases hgap : gap.bytes with _ | ⟨sp, gs⟩
  · rw [hgap] at hd hrest
    rw [hgap] at hflat
    have hhead : st.rest.head? = some c := by rw [hrest, hbytes]; rfl
    cases hcon : v.isContainer with
    | false =>
      rw [hcon] at hflat
      refine hflat (by rw [Cst.weight_scalar hcon]; omega) ?_ rfl
      rw [hhead, Option.some.injEq, Option.some.injEq, ← hcontainer, hcon]
      exact Bool.false_ne_true
    | true =>
      refine Reads.peek ?_
      rw [if_pos (by rw [hhead, Option.some.injEq, Option.some.injEq, ← hcontainer, hcon])]
      have hdeep := hv Ws.none (d + 1) (st.after st.rest [.flush] 0 0)
        (by simp only [Cst.childWeight, List.isEmpty_nil, Bool.not_true, Bool.false_eq_true,
          if_false] at hd; omega) hrest
      exact (reads_emit.bind hdeep).congr rfl (Nat.zero_max _)
  · have hsp : isspace sp = true := by
      have h := gap.space
      rw [hgap, List.all_cons, Bool.and_eq_true] at h
      exact h.1
    rw [hgap] at hd hrest hflat
    refine hflat hd ?_ (by rw [List.isEmpty_cons, Bool.and_false])
    rw [hrest, List.cons_append, List.head?_cons]
    rintro (⟨⟨⟩⟩ | ⟨⟨⟩⟩) <;> exact absurd hsp (by decide)

end Trace

def Part.parse : Part → Nat → Nat → Prog Trace.St Unit
  | .value => Trace.value
  | .members => Trace.members
  | .elements => Trace.elements

/-- The input `r` starts with the tree text `s`, after the white space `gap`.  Before the members
the parser may already have skipped white space. -/
def Part.Starts : Part → Ws → List UInt8 → List UInt8 → Prop
  | .value, gap, r, s | .elements, gap, r, s => r = gap.bytes ++ s
  | .members, _, r, s => r.dropWhile isspace = s.dropWhile isspace

namespace Trace

/-- Skipping the white space before a value. -/
theorem value_run {fuel d : Nat} (gap : Ws) {c : UInt8} {s : List UInt8} {st : St}
    (hrest : st.rest = gap.bytes ++ c :: s) (hc : isspace c = false) :
    value (fuel + 1) d st =
      (if c = lbrace then object fuel d
      else if c = lbracket then array fuel d
      else if c = quote then string
      else if c = 0x74 then lit (Ascii.bytes "true")
      else if c = 0x66 then lit (Ascii.bytes "false")
      else if c = 0x6E then lit (Ascii.bytes "null")
      else if isdigit c ∨ c = minus then number
      else .fail) { st with rest := c :: s } := by
  rw [value]
  simp only [skipWs, peek, Prog.modify_bind_apply, Prog.modifyGet_bind_apply]
  rw [hrest, gap.dropWhile_append_cons s hc, List.head?_cons]

theorem reads_value {fuel d : Nat} {gap : Ws} {c : UInt8} {s k : List UInt8} {cs : List Cmd}
    {nest : Nat} {st : St} (hrest : st.rest = gap.bytes ++ c :: s) (hc : isspace c = false)
    (h : ∀ st' : St, st'.rest = c :: s →
      Reads
        (if c = lbrace then object fuel d
        else if c = lbracket then array fuel d
        else if c = quote then string
        else if c = 0x74 then lit (Ascii.bytes "true")
        else if c = 0x66 then lit (Ascii.bytes "false")
        else if c = 0x6E then lit (Ascii.bytes "null")
        else if isdigit c ∨ c = minus then number
        else .fail) st' k cs 0 nest) :
    Reads (value (fuel + 1) d) st k cs 0 nest := by
  intro hp
  exact (value_run gap hrest hc).trans (h { st with rest := c :: s } rfl hp)

section Loops

variable {fuel d nest : Nat} {k : List UInt8} {cs : List Cmd} {st : St}

/-- The body of a container is run behind its bracket, unless the closing one follows. -/
theorem container_run {loop : Prog St Unit} {b : UInt8} (w : Ws) {c : UInt8} {s : List UInt8}
    (hrest : st.rest.tail = w.bytes ++ c :: s) (hc : isspace c = false) (hcb : c ≠ b) :
    (do
      enter
      next
      skipWs
      let c ← peek
      if c = some b then do
        next
        leave
      else loop) st = loop ⟨c :: s, st.cmds, st.active + 1, max st.peak (st.active + 1)⟩ := by
  simp only [enter, next, skipWs, peek, Prog.modify_bind_apply, Prog.modifyGet_bind_apply]
  rw [hrest, w.dropWhile_append_cons s hc, List.head?_cons,
    if_neg (fun h => hcb (Option.some.inj h))]

theorem reads_container {loop : Prog St Unit} {b : UInt8} (w : Ws) {c : UInt8} {s : List UInt8}
    (hrest : st.rest.tail = w.bytes ++ c :: s) (hc : isspace c = false) (hcb : c ≠ b)
    (h : ∀ st' : St, st'.rest = c :: s → Reads loop st' k cs 1 nest) :
    Reads
      (do
        enter
        next
        skipWs
        let c ← peek
        if c = some b then do
          next
          leave
        else loop) st k cs 0 (nest + 1) := by
  intro hp
  rw [container_run w hrest hc hcb, h _ (by rfl) (by simp only; omega)]
  simp only [St.after, Nat.add_sub_cancel, Nat.sub_zero]
  congr 3
  omega

/-- An empty container. -/
theorem reads_empty {loop : Prog St Unit} {b : UInt8} (w : Ws)
    (hrest : st.rest.tail = w.bytes ++ b :: k) (hb : isspace b = false) :
    Reads
      (do
        enter
        next
        skipWs
        let c ← peek
        if c = some b then do
          next
          leave
        else loop) st k [] 0 1 := by
  intro hp
  simp only [enter, next, skipWs, peek, Prog.modify_bind_apply, Prog.modifyGet_bind_apply]
  rw [hrest, w.dropWhile_append_cons k hb, List.head?_cons, if_pos rfl]
  simp only [leave, Prog.modify_bind_apply, Prog.modify_apply, List.tail_cons, St.after,
    List.append_nil, Nat.add_sub_cancel, Nat.sub_zero]

/-- What follows the value of the last member or element. -/
theorem reads_last {loop : Prog St Unit} {b : UInt8} (w : Ws) (hrest : st.rest = w.bytes ++ b :: k)
    (hb : isspace b = false) (hcomma : b ≠ comma) :
    Reads
      (do
        skipWs
        let c ← peek
        if c = some comma then do
          next
          loop
        else close b) st k [] 1 0 := by
  refine (reads_skipWs w hrest hb).step (Reads.peek ?_)
  rw [St.after_rest, List.head?_cons, if_neg (fun h => hcomma (Option.some.inj h))]
  exact reads_close Ws.none rfl hb

/-- What follows the value of another member or element. -/
theorem comma_run {loop : Prog St Unit} {b : UInt8} (w : Ws) {s : List UInt8}
    (hrest : st.rest = w.bytes ++ comma :: s) :
    (do
      skipWs
      let c ← peek
      if c = some comma then do
        next
        loop
      else close b) st = loop { st with rest := s } := by
  simp only [skipWs, peek, next, Prog.modify_bind_apply, Prog.modifyGet_bind_apply]
  rw [hrest, w.dropWhile_append_cons s (by decide), List.head?_cons, if_pos rfl]
  simp only [Prog.modify_bind_apply, List.tail_cons]

theorem reads_comma {loop : Prog St Unit} {b : UInt8} (w : Ws) {s : List UInt8}
    (hrest : st.rest = w.bytes ++ comma :: s)
    (h : ∀ st' : St, st'.rest = s → Reads loop st' k cs 1 nest) :
    Reads
      (do
        skipWs
        let c ← peek
        if c = some comma then do
          next
          loop
        else close b) st k cs 1 nest := by
  intro hp
  exact (comma_run w hrest).trans (h { st with rest := s } rfl hp)

/-- The key of a member, up to its value. -/
theorem key_run (key : Key) {m : Prog St Unit} {c : UInt8} {s : List UInt8}
    (hrest : st.rest.dropWhile isspace = (key.bytes ++ c :: s).dropWhile isspace)
    (hc : isspace c = false) :
    (do
      skipWs
      let c ← peek
      if c ≠ some quote then .fail
      else do
        emit [.indent d]
        string
        skipWs
        let c ← peek
        if c ≠ some colon then .fail
        else do
          next
          skipWs
          emit [.str (Ascii.bytes ": ")]
          m) st =
      m { st with
        rest := c :: s
        cmds := st.cmds ++ .indent d :: (key.name.cmds ++ [.str (Ascii.bytes ": ")]) } := by
  simp only [Key.bytes, Str.bytes, List.cons_append, List.append_assoc, List.nil_append] at hrest
  rw [key.before.dropWhile_append_cons _ (by decide)] at hrest
  have hname := (stringBody_bytes key.name
    (key.after.bytes ++ colon :: (key.gap.bytes ++ c :: s)))
  simp only [skipWs, peek, emit, string, next, Prog.modify_bind_apply, Prog.modifyGet_bind_apply]
  rw [hrest, List.head?_cons, if_neg (not_not.mpr rfl), Prog.modify_bind_apply,
    Prog.bind_of_ok (by rw [token, List.tail_cons, hname])]
  simp only [Prog.modify_bind_apply, Prog.modifyGet_bind_apply]
  rw [key.after.dropWhile_append_cons _ (by decide), List.head?_cons, if_neg (not_not.mpr rfl)]
  simp only [Prog.modify_bind_apply, List.tail_cons, key.gap.dropWhile_append_cons _ hc,
    List.append_assoc, List.cons_append, List.nil_append, Str.cmds]

theorem reads_key (key : Key) {m : Prog St Unit} {c : UInt8} {s : List UInt8}
    (hrest : st.rest.dropWhile isspace = (key.bytes ++ c :: s).dropWhile isspace)
    (hc : isspace c = false) (h : ∀ st' : St, st'.rest = c :: s → Reads m st' k cs 1 nest) :
    Reads
      (do
        skipWs
        let c ← peek
        if c ≠ some quote then .fail
        else do
          emit [.indent d]
          string
          skipWs
          let c ← peek
          if c ≠ some colon then .fail
          else do
            next
            skipWs
            emit [.str (Ascii.bytes ": ")]
            m) st k (.indent d :: (key.name.cmds ++ .str (Ascii.bytes ": ") :: cs)) 1 nest := by
  intro hp
  refine (key_run key hrest hc).trans ((h { st with rest := c :: s, cmds := _ } rfl hp).trans ?_)
  simp only [St.after, List.append_assoc, List.cons_append, List.nil_append]

/-- The dash before an element. -/
theorem reads_dash {m : Prog St Unit} (h : ∀ st' : St, st'.rest = st.rest → Reads m st' k cs 1 nest) :
    Reads
      (do
        emit [.indent d]
        emit [.str (Ascii.bytes "- ")]
        m) st k (.indent d :: .str (Ascii.bytes "- ") :: cs) 1 nest :=
  reads_emit.step (reads_emit.step (h _ rfl))

end Loops

/-- The functions read the tree wherever there is room for it, with enough fuel and a text behind it
that does not continue it. -/
def ReadsCst {p : Part} (t : Cst p) : Prop :=
  ∀ (fuel d : Nat) (gap : Ws) (k : List UInt8) (st : St), t.calls ≤ fuel →
    d + t.weight (!gap.bytes.isEmpty) ≤ maxDepth + 1 → Follow k →
    p.Starts gap st.rest (t.bytes ++ k) →
    Reads (p.parse fuel d) st k (t.cmds (!gap.bytes.isEmpty) d) p.closes t.nest

theorem ReadsCst.readsValue {v : Cst .value} (h : ReadsCst v) {fuel : Nat} {k : List UInt8}
    (hfuel : v.calls ≤ fuel) (hk : Follow k) : ReadsValue fuel v k := by
  intro gap d st hd hrest
  have hrun := h fuel d gap k st hfuel (by rwa [Cst.weight_value]) hk hrest
  rwa [Cst.cmds_value] at hrun

theorem readsCst_emptyObject (w : Ws) : ReadsCst (.emptyObject w) := by
  intro fuel d gap k st hfuel hd hk hrest
  obtain ⟨fuel, rfl⟩ := Nat.exists_eq_add_of_le' hfuel
  simp only [Part.Starts, Cst.bytes, List.cons_append, List.append_assoc] at hrest
  refine reads_value hrest (by decide) fun st' hst' => ?_
  rw [if_pos rfl, object, if_neg (by simp only [Cst.weight] at hd; omega)]
  exact reads_empty w (by rw [hst']; rfl) (by decide)

theorem ReadsCst.object {ms : Cst .members} (ih : ReadsCst ms) : ReadsCst (.object ms) := by
  intro fuel d gap k st hfuel hd hk hrest
  obtain ⟨fuel, rfl⟩ := Nat.exists_eq_add_of_le' (Nat.le_trans (Nat.le_add_left 2 _) hfuel)
  have hpos := Cst.weight_members_pos false ms
  obtain ⟨w, s, hms⟩ := ms.exists_members_bytes
  simp only [Cst.weight] at hd
  refine reads_value hrest (by decide) fun st' hst' => ?_
  rw [if_pos rfl, Trace.object, if_neg (by omega)]
  refine reads_container w (c := quote) (s := s ++ k) ?_ (by decide) (by decide) fun st₂ hst₂ => ?_
  · rw [hst', List.tail_cons, ← List.cons_append, ← List.append_assoc, ← hms]
    rfl
  · refine ih _ d Ws.none k st₂ (Nat.le_of_add_le_add_right hfuel) hd hk ?_
    rw [Part.Starts, hst₂, hms, List.append_assoc, w.dropWhile_append]
    rfl

theorem readsCst_emptyArray (w : Ws) : ReadsCst (.emptyArray w) := by
  intro fuel d gap k st hfuel hd hk hrest
  obtain ⟨fuel, rfl⟩ := Nat.exists_eq_add_of_le' hfuel
  simp only [Part.Starts, Cst.bytes, List.cons_append, List.append_assoc] at hrest
  refine reads_value hrest (by decide) fun st' hst' => ?_
  rw [if_neg (by decide), if_pos rfl, array, if_neg (by simp only [Cst.weight] at hd; omega)]
  exact reads_empty w (by rw [hst']; rfl) (by decide)

theorem ReadsCst.array (w : Ws) {es : Cst .elements} (ih : ReadsCst es) :
    ReadsCst (.array w es) := by
  intro fuel d gap k st hfuel hd hk hrest
  obtain ⟨fuel, rfl⟩ := Nat.exists_eq_add_of_le' (Nat.le_trans (Nat.le_add_left 2 _) hfuel)
  obtain ⟨c, s, hes, hsp, hend⟩ := es.exists_elements_bytes
  simp only [Cst.weight] at hd
  simp only [Part.Starts, Cst.bytes, List.cons_append, List.append_assoc] at hrest
  refine reads_value hrest (by decide) fun st' hst' => ?_
  rw [if_neg (by decide), if_pos rfl, Trace.array, if_neg (by omega)]
  refine reads_container w (s := s ++ k) ?_ hsp hend fun st₂ hst₂ => ?_
  · rw [hst', List.tail_cons, hes]
    rfl
  · refine ih _ d Ws.none k st₂ (Nat.le_of_add_le_add_right hfuel) ?_ hk ?_
    · simp only [Ws.none, List.isEmpty_nil, Bool.not_true]
      omega
    · rw [Part.Starts, hst₂, hes]
      rfl

theorem readsCst_string (s : Str) : ReadsCst (.string s) := by
  intro fuel d gap k st hfuel hd hk hrest
  obtain ⟨fuel, rfl⟩ := Nat.exists_eq_add_of_le' hfuel
  refine reads_value hrest (by decide) fun st' hst' => ?_
  rw [if_neg (by decide), if_neg (by decide), if_pos rfl]
  refine reads_token ?_
  rw [hst', List.tail_cons]
  change stringBody (s.flatMap Item.bytes ++ [quote] ++ k) = _
  rw [List.append_assoc]
  exact stringBody_bytes s k

theorem readsCst_literal (l : Literal) : ReadsCst (.literal l) := by
  intro fuel d gap k st hfuel hd hk hrest
  obtain ⟨fuel, rfl⟩ := Nat.exists_eq_add_of_le' hfuel
  have hscan := scanLit_bytes l fun c hc => (hk c hc).1
  cases l with
  | true =>
    refine reads_value hrest (by decide) fun st' hst' => ?_
    rw [if_neg (by decide), if_neg (by decide), if_neg (by decide), if_pos (by decide)]
    exact reads_token (hst' ▸ hscan)
  | false =>
    refine reads_value hrest (by decide) fun st' hst' => ?_
    rw [if_neg (by decide), if_neg (by decide), if_neg (by decide), if_neg (by decide),
      if_pos (by decide)]
    exact reads_token (hst' ▸ hscan)
  | null =>
    refine reads_value hrest (by decide) fun st' hst' => ?_
    rw [if_neg (by decide), if_neg (by decide), if_neg (by decide), if_neg (by decide),
      if_neg (by decide), if_pos (by decide)]
    exact reads_token (hst' ▸ hscan)

theorem readsCst_number (n : Number) : ReadsCst (.number n) := by
  intro fuel d gap k st hfuel hd hk hrest
  obtain ⟨fuel, rfl⟩ := Nat.exists_eq_add_of_le' hfuel
  obtain ⟨hsp, hobj, harr, -, hq, ht, hf, hn⟩ := Cst.start_of_number n.first n.start
  refine reads_value hrest hsp fun st' hst' => ?_
  rw [if_neg hobj, if_neg harr, if_neg hq, if_neg ht, if_neg hf, if_neg hn, if_pos n.start]
  exact reads_token (hst' ▸ scanNumber_bytes n fun c hc => (hk c hc).2)

theorem ReadsCst.lastMember (key : Key) {v : Cst .value} (w : Ws) (ih : ReadsCst v) :
    ReadsCst (.lastMember key v w) := by
  intro fuel d gap k st hfuel hd hk hrest
  obtain ⟨fuel, rfl⟩ := Nat.exists_eq_add_of_le' (Nat.le_trans (Nat.le_add_left 1 _) hfuel)
  obtain ⟨c, s, hv, hsp, -⟩ := v.exists_bytes_eq_cons
  simp only [Part.Starts, Cst.bytes, List.append_assoc, List.cons_append, List.nil_append]
    at hrest
  rw [hv, List.cons_append] at hrest
  rw [Part.parse, members]
  refine reads_key key hrest hsp fun st' hst' => ?_
  have hvalue : ReadsValue fuel v (w.bytes ++ rbrace :: k) :=
    ih.readsValue (Nat.le_of_add_le_add_right hfuel) (follow_sep w (by decide) k)
  have hchild := reads_child hvalue Ws.none d st' hd (by rw [hst', hv]; rfl)
  rw [show Ws.none.bytes.isEmpty = true from rfl, Bool.and_true] at hchild
  exact (hchild.bind (reads_last w (by rfl) (by decide) (by decide))).congr
    (List.append_nil _) (Nat.max_zero _)

theorem ReadsCst.member (key : Key) {v : Cst .value} (w : Ws) {ms : Cst .members}
    (ihv : ReadsCst v) (ihms : ReadsCst ms) : ReadsCst (.member key v w ms) := by
  intro fuel d gap k st hfuel hd hk hrest
  obtain ⟨fuel, rfl⟩ := Nat.exists_eq_add_of_le' (Nat.le_trans (Nat.le_add_left 1 _) hfuel)
  obtain ⟨c, s, hv, hsp, -⟩ := v.exists_bytes_eq_cons
  simp only [Cst.calls, Cst.weight] at hfuel hd
  simp only [Part.Starts, Cst.bytes, List.append_assoc, List.cons_append] at hrest
  rw [hv, List.cons_append] at hrest
  rw [Part.parse, members]
  refine reads_key key hrest hsp fun st' hst' => ?_
  have hvalue : ReadsValue fuel v (w.bytes ++ comma :: (ms.bytes ++ k)) :=
    ihv.readsValue (by omega) (follow_sep w (by decide) _)
  have hdv : d + Cst.childWeight false (v.weight false) ≤ maxDepth + 1 := by omega
  have hdm : d + ms.weight false ≤ maxDepth + 1 := by omega
  have hchild := reads_child hvalue Ws.none d st' hdv (by rw [hst', hv]; rfl)
  rw [show Ws.none.bytes.isEmpty = true from rfl, Bool.and_true] at hchild
  refine hchild.bind (reads_comma w (by rfl) fun st₂ hst₂ => ?_)
  exact ihms fuel d Ws.none k st₂ (by omega) hdm hk (by rw [Part.Starts, hst₂])

theorem ReadsCst.lastElement {v : Cst .value} (w : Ws) (ih : ReadsCst v) :
    ReadsCst (.lastElement v w) := by
  intro fuel d gap k st hfuel hd hk hrest
  obtain ⟨fuel, rfl⟩ := Nat.exists_eq_add_of_le' (Nat.le_trans (Nat.le_add_left 1 _) hfuel)
  simp only [Part.Starts, Cst.bytes, List.append_assoc, List.cons_append, List.nil_append]
    at hrest
  rw [Part.parse, elements]
  refine reads_dash fun st' hst' => ?_
  have hvalue : ReadsValue fuel v (w.bytes ++ rbracket :: k) :=
    ih.readsValue (Nat.le_of_add_le_add_right hfuel) (follow_sep w (by decide) k)
  have hchild := reads_child hvalue gap d st' hd (hst'.trans hrest)
  rw [← Bool.not_not gap.bytes.isEmpty] at hchild
  exact (hchild.bind (reads_last w (by rfl) (by decide) (by decide))).congr
    (List.append_nil _) (Nat.max_zero _)

theorem ReadsCst.element {v : Cst .value} (w gap' : Ws) {es : Cst .elements} (ihv : ReadsCst v)
    (ihes : ReadsCst es) : ReadsCst (.element v w gap' es) := by
  intro fuel d gap k st hfuel hd hk hrest
  obtain ⟨fuel, rfl⟩ := Nat.exists_eq_add_of_le' (Nat.le_trans (Nat.le_add_left 1 _) hfuel)
  simp only [Cst.calls, Cst.weight] at hfuel hd
  simp only [Part.Starts, Cst.bytes, List.append_assoc, List.cons_append] at hrest
  rw [Part.parse, elements]
  refine reads_dash fun st' hst' => ?_
  have hvalue : ReadsValue fuel v (w.bytes ++ comma :: (gap'.bytes ++ (es.bytes ++ k))) :=
    ihv.readsValue (by omega) (follow_sep w (by decide) _)
  have hchild := reads_child hvalue gap d st' (by omega) (hst'.trans hrest)
  rw [← Bool.not_not gap.bytes.isEmpty] at hchild
  refine hchild.bind (reads_comma w (by rfl) fun st₂ hst₂ => ?_)
  exact ihes fuel d gap' k st₂ (by omega) (by omega) hk hst₂

/-- Every tree is read. -/
theorem reads_cst {p : Part} (t : Cst p) : ReadsCst t := by
  induction t with
  | emptyObject w => exact readsCst_emptyObject w
  | object ms ih => exact ih.object
  | emptyArray w => exact readsCst_emptyArray w
  | array w es ih => exact ih.array w
  | string s => exact readsCst_string s
  | literal l => exact readsCst_literal l
  | number n => exact readsCst_number n
  | lastMember key v w ih => exact ih.lastMember key w
  | member key v w ms ihv ihms => exact ihv.member key w ihms
  | lastElement v w ih => exact ih.lastElement w
  | element v w gap es ihv ihes => exact ihv.element w gap ihes

/-- A text is read to its end. -/
theorem run_text (t : Text) (hd : t.value.weight false ≤ maxDepth + 1) :
    run t.bytes =
      some (some (), ⟨[], t.value.cmds false 0 ++ [.flush], 0, t.nest⟩) := by
  obtain ⟨c, s, hv, hsp, -⟩ := t.value.exists_bytes_eq_cons
  have hfuel : t.value.calls ≤ Stream.callBound t.bytes := by
    have hcalls := t.value.calls_le
    simp only [Stream.callBound, Text.bytes, List.length_append]
    omega
  have hfollow : Follow t.after.bytes := by
    have h := t.after.follow follow_nil
    rwa [List.append_nil] at h
  have hafter : t.after.bytes.dropWhile isspace = [] := by
    have h := t.after.dropWhile_append []
    rwa [List.append_nil] at h
  have hstart : (St.start t.bytes).rest = t.before.bytes ++ c :: (s ++ t.after.bytes) := by
    rw [St.start, Text.bytes, hv]
    rfl
  have hvalue := reads_cst t.value (Stream.callBound t.bytes) 0 Ws.none t.after.bytes
    ((St.start t.bytes).after (c :: (s ++ t.after.bytes)) [] 0 0) hfuel
    ((Nat.zero_add _).symm ▸ hd) hfollow (by rw [hv]; rfl)
  have hrun : Reads (text (Stream.callBound t.bytes)) (St.start t.bytes) []
      (t.value.cmds false 0 ++ [.flush]) 0 t.nest := by
    refine (reads_skipWs t.before hstart hsp).step (Reads.peek ?_)
    rw [St.after_rest, List.head?_cons, if_neg nofun]
    refine (hvalue.bind ((reads_dropWhile hafter).step (Reads.peek ?_))).congr rfl (Nat.max_zero _)
    rw [St.after_rest, List.head?_nil, if_neg (not_not.mpr rfl)]
    exact reads_emit
  rw [run, hrun (Nat.le_refl 0)]
  simp only [St.after, St.start, List.nil_append, Nat.sub_zero, Nat.zero_add, Nat.zero_max]

end Trace

end J2t
