import ZteWifi.H2t.References
import ZteWifi.H2t.Boundaries
import ZteWifi.Text.Spaces

/-!
# The form of the lines

White space is folded by `append_space`, and control characters are dropped by the loop of `main`.
A space that finds a full line escapes the one, and a character reference the other.
-/

open Ascii LineBuf Text

namespace H2t

/-! ## 1. The calls of a valid page -/

namespace Stream

theorem flows_byte {c : UInt8} (hc : c ≠ space) : (Cmd.byte c).Flows := .inl (decide_eq_true hc)

theorem flows_raw {c : UInt8} (hc : c ≠ space) : (Cmd.raw c).Flows := .inl (decide_eq_true hc)

theorem Decoded.flows {cs : List Cmd} (h : Decoded cs) : ∀ c ∈ cs, c.Flows := by
  have htext : ∀ c : UInt8, isTextByte c → c ≠ space := by decide +kernel
  cases h with
  | @text u hu =>
    refine List.forall_mem_cons.mpr ⟨flows_byte (by decide), fun c hc => ?_⟩
    obtain ⟨d, hd, rfl⟩ := List.mem_map.mp hc
    exact flows_byte (htext d (hu d hd))
  | code cp =>
    unfold emitCodePoint
    split
    · exact List.forall_mem_nil _
    split
    · exact List.forall_mem_singleton.mpr (.inr (.inl rfl))
    · next hcp =>
      -- a reference to a space is one of the cases above
      have hspace : space ∉ utf8Bytes cp := fun hmem =>
        hcp (.inl (eq_of_mem_utf8Bytes (by decide) hmem))
      refine List.forall_mem_singleton.mpr (.inl ?_)
      simpa [Cmd.isText] using hspace
  | known name =>
    have hall : ∀ p ∈ knownEntities, p.2.isText = true ∨ p.2 = .space ∨ p.2 = .flush := by
      decide +kernel
    intro c hc
    exact hall _ (mem_of_lookup (Option.mem_toList.mp hc))

theorem mainStep_flows {c : UInt8} {s : List UInt8} (h : ValidUtf8 (c :: s)) :
    ∀ x ∈ (mainStep c s).1, x.Flows := by
  unfold mainStep
  split
  · rcases handleTag_cmds s with htag | htag <;> rw [htag]
    · exact List.forall_mem_nil _
    · exact List.forall_mem_singleton.mpr (.inr (.inr rfl))
  split
  · exact (decodeEntity_reads s).1.flows
  split
  · exact List.forall_mem_singleton.mpr (.inr (.inl rfl))
  next hspace =>
  split
  · exact List.forall_mem_nil _
  have hne : c ≠ space := by
    rintro rfl
    exact hspace rfl
  obtain ⟨ch, t, r, -, -, hcont, -, heq⟩ := appendTextByte_char h
  rw [heq]
  split
  · exact List.forall_mem_singleton.mpr (flows_byte hne)
  · refine List.forall_mem_cons.mpr ⟨.inl ?_, fun x hx => ?_⟩
    · rw [Cmd.isText, decide_eq_true (utf8CharLen_le c), decide_eq_true hne]
      rfl
    · have hcontinuation : ∀ c : UInt8, isContinuation c → c ≠ space := by decide +kernel
      obtain ⟨b, hb, rfl⟩ := List.mem_map.mp hx
      exact flows_raw (hcontinuation b (hcont b hb))

theorem commands_flows {input : List UInt8} (h : ValidUtf8 input) :
    ∀ x ∈ commands input, x.Flows := by
  induction input using turns_induction with
  | nil => exact List.forall_mem_nil _
  | turn c s ih =>
    rw [commands_cons, List.forall_mem_append]
    exact ⟨mainStep_flows h, ih (mainStep_valid h)⟩

/-! ## 2. Control characters -/

/-- The control characters that are no white space of a reference. -/
def Control (v : Nat) : Prop := v < 0x20 ∧ v ≠ 0 ∧ v ≠ 0x09 ∧ v ≠ 0x0A ∧ v ≠ 0x0D

/-- The bytes behind an `&` start with a reference by number to such a character. -/
def ControlRef (s : List UInt8) : Prop :=
  ∃ base pre ds t, NumPrefix base pre ∧ Digits base ds ∧ ds ≠ [] ∧ pre.length + ds.length ≤ 38 ∧
    s = pre ++ (ds ++ semicolon :: t) ∧ Control (valueFrom base 0 ds)

/-- The bytes that the calls append are no control characters. -/
def Printable (cs : List Cmd) : Prop := ∀ c ∈ cs.flatMap Cmd.appended, 0x20 ≤ c

theorem printable_emitCodePoint (v : Nat) : Printable (emitCodePoint v) ↔ ¬ Control v := by
  unfold Printable emitCodePoint Control
  split
  · next hdropped => exact iff_of_true (List.forall_mem_nil _) (by omega)
  split
  · next hspace => exact iff_of_true (List.forall_mem_singleton.mpr (by decide)) (by omega)
  next hdropped hspace =>
  rw [List.flatMap_singleton, Cmd.appended]
  by_cases hascii : v < 0x80
  · rw [utf8Bytes_ascii hascii, List.forall_mem_singleton, UInt8.le_iff_toNat_le,
      UInt8.toNat_ofNat', Nat.mod_eq_of_lt (by omega)]
    show 0x20 ≤ v ↔ _
    omega
  · refine iff_of_true (fun c hc => ?_) (by omega)
    exact UInt8.le_trans (by decide) (utf8Bytes_ge hascii c hc)

theorem printable_known (name : List UInt8) : Printable (emitKnownEntity name) := by
  have hall : (knownEntities.all fun p => p.2.appended.all fun c => 0x20 ≤ c) = true := by
    decide +kernel
  intro c hc
  obtain ⟨x, hx, hc⟩ := List.mem_flatMap.mp hc
  have hmem := mem_of_lookup (Option.mem_toList.mp hx)
  simpa using List.all_eq_true.mp (List.all_eq_true.mp hall _ hmem) c hc

theorem printable_text {u : List UInt8} (hu : ∀ c ∈ u, isTextByte c) : Printable (resend u) := by
  have htext : ∀ c : UInt8, isTextByte c → 0x20 ≤ c := by decide +kernel
  intro c hc
  rw [resend, List.flatMap_cons, List.flatMap_map] at hc
  rcases List.mem_append.mp hc with hc | hc
  · rw [List.mem_singleton.mp hc]
    decide
  · obtain ⟨d, hd, hc⟩ := List.mem_flatMap.mp hc
    rw [List.mem_singleton.mp hc]
    exact htext d (hu d hd)

/-- A number of the right length and its semicolon are decoded. -/
theorem decodeEntity_numeric {base : Nat} {pre ds : List UInt8} (hpre : NumPrefix base pre)
    (hds : Digits base ds) (hne : ds ≠ []) (hlen : pre.length + ds.length ≤ 38)
    (hval : valueFrom base 0 ds ≤ 0x10FFFF) (t : List UInt8) :
    decodeEntity (pre ++ (ds ++ semicolon :: t)) = (emitCodePoint (valueFrom base 0 ds), t) := by
  cases hpre with
  | decimal =>
    rw [List.length_singleton] at hlen
    exact decodeEntity_decimal hds hne (by omega) hval t
  | hex hx =>
    rw [List.length_cons, List.length_singleton] at hlen
    exact decodeEntity_hex hx hds hne (by omega) hval t

theorem printable_decodeEntity (s : List UInt8) :
    Printable (decodeEntity s).1 ↔ ¬ ControlRef s := by
  constructor
  -- a reference to a control character is complete, so that it is decoded
  · rintro hprint ⟨base, pre, ds, t, hpre, hds, hne, hlen, rfl, hcontrol⟩
    have hval : valueFrom base 0 ds ≤ 0x10FFFF := Nat.le_of_lt (Nat.lt_trans hcontrol.1 (by decide))
    rw [decodeEntity_numeric hpre hds hne hlen hval] at hprint
    exact (printable_emitCodePoint _).mp hprint hcontrol
  · intro hcontrol
    by_cases hcomplete : ∃ f t, Complete s f t
    · obtain ⟨f, t, hcomplete⟩ := hcomplete
      cases hcomplete with
      | @decimal ds t hds hne hlen hval =>
        rw [decodeEntity_decimal hds hne hlen hval, printable_emitCodePoint]
        refine fun h => hcontrol ⟨10, [hash], ds, t, .decimal, hds, hne, ?_, rfl, h⟩
        rw [List.length_singleton]
        omega
      | @hex x ds t hx hds hne hlen hval =>
        rw [decodeEntity_hex hx hds hne hlen hval, printable_emitCodePoint]
        refine fun h => hcontrol ⟨16, [hash, x], ds, t, .hex hx, hds, hne, ?_, rfl, h⟩
        rw [List.length_cons, List.length_singleton]
        omega
      | named hn hne hlen =>
        rw [decodeEntity_named hn hne hlen]
        exact printable_known _
    -- what is not complete goes out as text
    · obtain ⟨u, -, heq, hu⟩ :=
        decodeEntity_incomplete fun f t h => hcomplete ⟨f, t, h⟩
      rw [heq]
      exact printable_text hu

/-- Control characters are appended by no turn of the loop but those at an `&`. -/
theorem mainStep_printable {c : UInt8} {s : List UInt8} (h : ValidUtf8 (c :: s)) :
    c = amp ∧ (mainStep c s).1 = (decodeEntity s).1 ∨ c ≠ amp ∧ Printable (mainStep c s).1 := by
  unfold mainStep
  split
  · next hlt =>
    refine .inr ⟨by rw [hlt]; decide, ?_⟩
    rcases handleTag_cmds s with htag | htag <;> rw [htag] <;> exact List.forall_mem_nil _
  split
  · next hamp => exact .inl ⟨hamp, rfl⟩
  next hamp =>
  refine .inr ⟨hamp, ?_⟩
  split
  · exact List.forall_mem_singleton.mpr (by decide)
  split
  · exact List.forall_mem_nil _
  next hcontrol =>
  obtain ⟨ch, t, r, -, -, hcont, -, heq⟩ := appendTextByte_char h
  have hfirst : 0x20 ≤ c := UInt8.not_lt.mp hcontrol
  rw [heq]
  split
  · exact List.forall_mem_singleton.mpr hfirst
  · have hcontinuation : ∀ c : UInt8, isContinuation c → 0x20 ≤ c := by decide +kernel
    intro b hb
    rw [List.flatMap_cons, List.flatMap_map] at hb
    rcases List.mem_append.mp hb with hb | hb
    · rw [List.mem_singleton.mp hb]
      exact hfirst
    · obtain ⟨b', hb', hb⟩ := List.mem_flatMap.mp hb
      rw [List.mem_singleton.mp hb]
      exact hcontinuation b' (hcont b' hb')

/-- One of those does exactly if a control character is referred to. -/
theorem printable_mainStep {c : UInt8} {s : List UInt8} (h : ValidUtf8 (c :: s)) :
    Printable (mainStep c s).1 ↔ ¬ (c = amp ∧ ControlRef s) := by
  rcases mainStep_printable h with ⟨hamp, heq⟩ | ⟨hamp, hprint⟩
  · rw [heq, printable_decodeEntity]
    exact not_congr (and_iff_right hamp).symm
  · exact iff_of_true hprint fun hcontrol => hamp hcontrol.1

theorem unread_cons {c : UInt8} {s r : List UInt8} :
    Unread (c :: s) r ↔ r = c :: s ∨ Unread ((mainStep c s).2.getD []) r := by
  constructor
  · intro h
    induction h with
    | start => exact .inl rfl
    | turn _ ih =>
      rcases ih with heq | ih
      · obtain ⟨rfl, rfl⟩ := List.cons.inj heq
        exact .inr .start
      · exact .inr ih.turn
  · rintro (rfl | h)
    · exact .start
    · induction h with
      | start => exact Unread.start.turn
      | turn _ ih => exact ih.turn

theorem unread_nil {r : List UInt8} (h : Unread [] r) : r = [] := by
  generalize hinput : ([] : List UInt8) = input at h ⊢
  induction h with
  | start => rfl
  | turn _ ih => cases hinput.trans ih.symm

theorem printable_append (cs ds : List Cmd) :
    Printable (cs ++ ds) ↔ Printable cs ∧ Printable ds := by
  unfold Printable
  rw [List.flatMap_append, List.forall_mem_append]

theorem printable_commands {input : List UInt8} (h : ValidUtf8 input) :
    Printable (commands input) ↔ ∀ s, Unread input (amp :: s) → ¬ ControlRef s := by
  induction input using turns_induction with
  | nil => exact iff_of_true (List.forall_mem_nil _) fun s hs => by cases unread_nil hs
  | turn c s ih =>
    -- an `&` is met in this turn or in a later one
    rw [commands_cons, printable_append, printable_mainStep h, ih (mainStep_valid h)]
    constructor
    · rintro ⟨hturn, hrest⟩ t ht hcontrol
      rcases unread_cons.mp ht with heq | ht
      · obtain ⟨rfl, rfl⟩ := List.cons.inj heq
        exact hturn ⟨rfl, hcontrol⟩
      · exact hrest t ht hcontrol
    · intro hall
      refine ⟨?_, fun t ht => hall t (unread_cons.mpr (.inr ht))⟩
      rintro ⟨rfl, hcontrol⟩
      exact hall s .start hcontrol

/-- No line feed is appended. -/
theorem nl_notMem_emitCodePoint (v : Nat) : nl ∉ (emitCodePoint v).flatMap Cmd.appended := by
  unfold emitCodePoint
  split
  · exact List.not_mem_nil
  split
  · decide
  next hspace =>
  rw [List.flatMap_singleton, Cmd.appended]
  intro hmem
  exact hspace (.inr (.inr (.inl (eq_of_mem_utf8Bytes (by decide) hmem))))

theorem Printable.nl_notMem {cs : List Cmd} (h : Printable cs) : nl ∉ cs.flatMap Cmd.appended :=
  fun hmem => absurd (h nl hmem) (by decide)

theorem Decoded.nl_notMem {cs : List Cmd} (h : Decoded cs) : nl ∉ cs.flatMap Cmd.appended := by
  cases h with
  | text hu => exact (printable_text hu).nl_notMem
  | code cp => exact nl_notMem_emitCodePoint cp
  | known name => exact (printable_known name).nl_notMem

theorem nl_notMem_commands {input : List UInt8} (h : ValidUtf8 input) :
    nl ∉ (commands input).flatMap Cmd.appended := by
  induction input using turns_induction with
  | nil => exact List.not_mem_nil
  | turn c s ih =>
    have hturn : nl ∉ (mainStep c s).1.flatMap Cmd.appended := by
      rcases mainStep_printable h with ⟨-, heq⟩ | ⟨-, hprint⟩
      · rw [heq]
        exact (decodeEntity_reads s).1.nl_notMem
      · exact hprint.nl_notMem
    rw [commands_cons, List.flatMap_append, List.mem_append]
    exact not_or.mpr ⟨hturn, ih (mainStep_valid h)⟩

/-- Of a valid page the lines hold what was appended, but for the spaces. -/
theorem mem_lines_iff {input : List UInt8} (h : ValidUtf8 input) {c : UInt8} (hc : c ≠ space) :
    (∃ l ∈ lines input, c ∈ l) ↔ c ∈ (commands input).flatMap Cmd.appended := by
  have hclean := (((keepsClean_commands h).append keepsClean_flush) .empty .empty).1
  have hsolid (s : List UInt8) : c ∈ solid s ↔ c ∈ s := by
    rw [solid, List.mem_filter]
    exact and_iff_left (decide_eq_true hc)
  -- the bytes other than spaces are the same on both sides, in the same order
  rw [← hsolid, ← solid_lines hclean.holds.whole, hsolid]
  exact List.mem_flatten.symm

theorem printable_lines {input : List UInt8} (h : ValidUtf8 input) :
    (∀ l ∈ lines input, ∀ c ∈ l, 0x20 ≤ c) ↔ Printable (commands input) := by
  have hspace {c : UInt8} (hc : ¬ 0x20 ≤ c) : c ≠ space := by
    rintro rfl
    exact hc (by decide)
  constructor
  · intro hall c hc
    by_contra hcontrol
    obtain ⟨l, hl, hmem⟩ := (mem_lines_iff h (hspace hcontrol)).mpr hc
    exact hcontrol (hall l hl c hmem)
  · intro hprint l hl c hc
    by_contra hcontrol
    exact hcontrol (hprint c ((mem_lines_iff h (hspace hcontrol)).mp ⟨l, hl, hc⟩))

end Stream

/-- A valid page prints no control character exactly if no reference to one is decoded. -/
theorem controls_iff (input : List UInt8) (h : ValidUtf8 input) :
    (Stream.main input).stdout = printed (Stream.lines input) ∧
      ((∀ l ∈ Stream.lines input, ∀ c ∈ l, 0x20 ≤ c) ↔
        ∀ s, Stream.Unread input (amp :: s) → ¬ Stream.ControlRef s) :=
  ⟨Stream.main_stdout input, (Stream.printable_lines h).trans (Stream.printable_commands h)⟩

/-- The start of a terminal escape sequence. -/
def escapePage : List UInt8 := bytes "&#27;[2J"

theorem validUtf8_escapePage : ValidUtf8 escapePage := validUtf8_ascii (by decide +kernel)

theorem controls_iff_escape :
    (Stream.main escapePage).stdout = printed (Stream.lines escapePage) ∧
      ((∀ l ∈ Stream.lines escapePage, ∀ c ∈ l, 0x20 ≤ c) ↔
        ∀ s, Stream.Unread escapePage (amp :: s) → ¬ Stream.ControlRef s) :=
  controls_iff escapePage validUtf8_escapePage

/-- It is sent to the terminal. -/
theorem not_controls_escape : ¬ ∀ input, ValidUtf8 input →
    (Stream.main input).stdout = printed (Stream.lines input) ∧
      ∀ l ∈ Stream.lines input, ∀ c ∈ l, 0x20 ≤ c := by
  intro h
  have hlines : Stream.lines escapePage = [[0x1B, 0x5B, 0x32, 0x4A]] := by decide +kernel
  have hprint := (h escapePage validUtf8_escapePage).2
  rw [hlines] at hprint
  exact absurd (hprint _ List.mem_cons_self 0x1B List.mem_cons_self) (by decide)

/-! ## 3. White space -/

/-- The lines of a valid page are trimmed exactly if no text follows a space that finds a full line
without another one. -/
theorem trimmed_lines_iff (input : List UInt8) (h : ValidUtf8 input) :
    (Stream.main input).stdout = printed (Stream.lines input) ∧
      (∀ l ∈ Stream.lines input, nl ∉ l) ∧
      ((∀ l ∈ Stream.lines input, Trimmed l) ↔
        Folds (Stream.commands input ++ [.flush]) .empty) := by
  refine ⟨Stream.main_stdout input, fun l hl hmem => ?_,
    trimmed_iff_folds (Stream.commands_flows h)⟩
  exact Stream.nl_notMem_commands h ((Stream.mem_lines_iff h (by decide)).mp ⟨l, hl, hmem⟩)

/-- A word of eighty letters and one of a single letter. -/
def fullPage : List UInt8 := List.replicate 80 0x61 ++ bytes " b"

theorem validUtf8_fullPage : ValidUtf8 fullPage := validUtf8_ascii (by decide +kernel)

theorem trimmed_lines_iff_full :
    (Stream.main fullPage).stdout = printed (Stream.lines fullPage) ∧
      (∀ l ∈ Stream.lines fullPage, nl ∉ l) ∧
      ((∀ l ∈ Stream.lines fullPage, Trimmed l) ↔
        Folds (Stream.commands fullPage ++ [.flush]) .empty) :=
  trimmed_lines_iff fullPage validUtf8_fullPage

/-- The second line begins with the space. -/
theorem not_trimmed_lines_full : ¬ ∀ input, ValidUtf8 input →
    (Stream.main input).stdout = printed (Stream.lines input) ∧
      ∀ l ∈ Stream.lines input, Trimmed l := by
  intro h
  have hlines : Stream.lines fullPage = [List.replicate 80 0x61, [space, 0x62]] := by
    decide +kernel
  have htrim := (h fullPage validUtf8_fullPage).2
  rw [hlines] at htrim
  exact (htrim _ (List.mem_cons_of_mem _ List.mem_cons_self)).first rfl

end H2t
