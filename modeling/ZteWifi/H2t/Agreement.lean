import Mathlib.Logic.Function.Iterate
import ZteWifi.H2t.Entities
import ZteWifi.H2t.WholeRefines
import ZteWifi.Text.Utf8

/-!
# The two converters agree

On valid UTF-8 the streaming version and the whole-buffer version do the same, as long as each `&`
in the text is one of those that both read in the same way, and no quote stands in the closing tag
of a skipped element.
-/

open Ascii LineBuf

namespace H2t

/-! ## 1. Character references -/

/-- What may follow an `&`. -/
inductive Reference : List UInt8 → Prop
  | number {base : Nat} {u ds t : List UInt8} (hu : NumPrefix base u) (hds : Digits base ds)
      (hne : ds ≠ []) (hlen : ds.length ≤ 36) (hval : valueFrom base 0 ds ≤ 0x10FFFF) :
      Reference (u ++ (ds ++ semicolon :: t))
  | broken {s : List UInt8} (h : ∀ base u ds t, NumPrefix base u → Digits base ds → ds ≠ [] →
      hash :: s ≠ u ++ (ds ++ semicolon :: t)) : Reference (hash :: s)
  | named {n t : List UInt8} (hn : ∀ c ∈ n, isalnum c) (hne : n ≠ []) (hlen : n.length ≤ 10) :
      Reference (n ++ semicolon :: t)
  | empty {t : List UInt8} : Reference (semicolon :: t)
  | loose {c : UInt8} {s : List UInt8} (hc : c ≠ hash) (hsemi : semicolon ∉ (c :: s).take 11)
      (hrun : ((c :: s).dropWhile isalnum).head? ≠ some semicolon) : Reference (c :: s)
  | last : Reference []

namespace Whole

variable {html : List UInt8} {p d0 : Nat}

theorem digits_all {base : Nat} {ds : List UInt8} (hds : Digits base ds) (v i : Nat)
    (t : List UInt8) : digits base (UInt32.ofNat v) i (ds ++ semicolon :: t) =
      (UInt32.ofNat (valueFrom base v ds), i + ds.length) := by
  induction ds generalizing v i with
  | nil => rw [List.nil_append, digits, digitOf_semicolon]; rfl
  | cons c ds ih =>
    obtain ⟨d, hd⟩ := Option.isSome_iff_exists.mp (hds c List.mem_cons_self)
    rw [List.cons_append, digits, hd]
    simp only
    rw [← UInt32.ofNat_mul, ← UInt32.ofNat_add, ih fun c hc => hds c (List.mem_cons_of_mem _ hc),
      valueFrom, valueFrom, List.foldl_cons, hd, List.length_cons]
    simp only [Option.getD_some, Nat.add_assoc, Nat.add_comm 1]

theorem digits_spec (base : Nat) (cp : UInt32) (i : Nat) (s : List UInt8) :
    ∃ u r, s = u ++ r ∧ Digits base u ∧ (digits base cp i s).2 = i + u.length := by
  induction s generalizing cp i with
  | nil => exact ⟨[], [], rfl, nofun, rfl⟩
  | cons c s ih =>
    rw [digits]
    split
    · exact ⟨[], c :: s, rfl, nofun, rfl⟩
    · next d hd =>
      obtain ⟨u, r, rfl, hu, hlen⟩ := ih (cp * UInt32.ofNat base + UInt32.ofNat d) (i + 1)
      refine ⟨c :: u, r, rfl, List.forall_mem_cons.mpr ⟨by rw [hd]; rfl, hu⟩, ?_⟩
      rw [hlen, List.length_cons]
      omega

/-- The digits are added up in 32 bits. -/
theorem numericDigits_wrapped {base : Nat} {ds t : List UInt8}
    (h : html.drop d0 = ds ++ semicolon :: t) (hds : Digits base ds) (hne : ds ≠ []) :
    numericDigits html base d0 p =
      (emitCodePoint (valueFrom base 0 ds % 2 ^ 32), d0 + ds.length + 1) := by
  have hrun := digits_all hds 0 d0 t
  have hpos := List.length_pos_iff.mpr hne
  have hsemi : html[d0 + ds.length]? = some semicolon := by
    rw [getElem?_at h, List.getElem?_append_right (Nat.le_refl _), Nat.sub_self]
    rfl
  rw [numericDigits, h]
  change digits base 0 d0 (ds ++ semicolon :: t) = _ at hrun
  rw [hrun]
  simp only [hsemi, UInt32.toNat_ofNat']
  rw [if_neg]
  rintro (hzero | hsemi)
  · omega
  · exact hsemi rfl

theorem numericDigits_all {base : Nat} {ds t : List UInt8} (h : html.drop d0 = ds ++ semicolon :: t)
    (hds : Digits base ds) (hne : ds ≠ []) (hval : valueFrom base 0 ds ≤ 0x10FFFF) :
    numericDigits html base d0 p =
      (emitCodePoint (valueFrom base 0 ds), d0 + ds.length + 1) := by
  rw [numericDigits_wrapped h hds hne, Nat.mod_eq_of_lt (by omega)]

theorem numericDigits_broken {base : Nat} {s : List UInt8} (h : html.drop d0 = s)
    (hs : ∀ ds t, Digits base ds → ds ≠ [] → s ≠ ds ++ semicolon :: t) :
    numericDigits html base d0 p = ([.byte amp], p + 1) := by
  obtain ⟨u, r, hur, hdigits, hlen⟩ := digits_spec base 0 d0 s
  rw [numericDigits, h]
  rcases hrun : digits base 0 d0 s with ⟨cp, i⟩
  rw [hrun] at hlen
  simp only at hlen ⊢
  subst hlen
  rw [if_pos]
  by_cases hu : u = []
  · exact .inl (by rw [hu]; rfl)
  · refine .inr fun hsemi => ?_
    rw [getElem?_at h, hur, List.getElem?_append_right (Nat.le_refl _), Nat.sub_self,
      ← List.head?_eq_getElem?] at hsemi
    obtain ⟨t, rfl⟩ := List.head?_eq_some_iff.mp hsemi
    exact hs u t hdigits hu hur

/-- The two versions tell the base of a reference in the same way. -/
theorem decodeEntity_number {base : Nat} {pre s : List UInt8} (hpre : NumPrefix base pre)
    (hx : base = 10 → ¬ (s.head? = some 0x78 ∨ s.head? = some 0x58))
    (h : html.drop p = amp :: (pre ++ s)) :
    html.drop (p + 1 + pre.length) = s ∧
      Stream.decodeEntity (pre ++ s) = Stream.numericDigits base pre s ∧
      decodeEntity html p = numericDigits html base (p + 1 + pre.length) p := by
  have hdrop : html.drop (p + 1) = pre ++ s := by rw [drop_at h]; rfl
  have hlen : ¬ p + 1 ≥ html.length := by
    rw [Nat.not_le, lt_length_iff h, List.length_cons, List.length_append]
    cases hpre <;> simp only [List.length_cons, List.length_nil] <;> omega
  have hhead (k : Nat) : html[p + 1 + k]? = (pre ++ s)[k]? := getElem?_at hdrop k
  refine ⟨by rw [drop_at hdrop, List.drop_left], ?_⟩
  cases hpre with
  | decimal =>
    have hhash : html[p + 1]? = some hash := hhead 0
    have hnext : html[p + 2]? = s.head? := (hhead 1).trans List.head?_eq_getElem?.symm
    rw [decodeEntity, if_neg hlen, if_pos hhash, numericEntity, hnext, if_neg (hx rfl)]
    refine ⟨?_, rfl⟩
    cases s with
    | nil => rfl
    | cons c s =>
      change Stream.numericEntity (c :: s) = _
      rw [Stream.numericEntity, if_neg (by simpa using hx rfl)]
  | @hex c hc =>
    have hhash : html[p + 1]? = some hash := hhead 0
    have hnext : html[p + 2]? = some c := hhead 1
    rw [decodeEntity, if_neg hlen, if_pos hhash, numericEntity, hnext, if_pos (by simpa using hc)]
    refine ⟨?_, rfl⟩
    change Stream.numericEntity (c :: s) = _
    rw [Stream.numericEntity, if_pos hc]

theorem exists_prefix (s : List UInt8) : ∃ base pre s', hash :: s = pre ++ s' ∧
    NumPrefix base pre ∧ (base = 10 → ¬ (s'.head? = some 0x78 ∨ s'.head? = some 0x58)) := by
  by_cases hx : s.head? = some 0x78 ∨ s.head? = some 0x58
  · cases s with
    | nil => simp at hx
    | cons c s => exact ⟨16, [hash, c], s, rfl, .hex (by simpa using hx), nofun⟩
  · exact ⟨10, [hash], s, rfl, .decimal, fun _ => hx⟩

/-- From an index on, the loop does these commands and comes to the bytes `r`. -/
def Reaches (html : List UInt8) (pos : Nat) (cmds : List Cmd) (r : List UInt8) : Prop :=
  ∃ pos', html.drop pos' = r ∧ commandsFrom html pos = cmds ++ commandsFrom html pos'

/-- A run of bytes each of which does one thing. -/
theorem reaches_map {f : UInt8 → Cmd} {u r : List UInt8} {pos : Nat}
    (hu : ∀ c ∈ u, ∀ pos, mainStep html c pos = ([f c], pos + 1)) (h : html.drop pos = u ++ r) :
    Reaches html pos (u.map f) r := by
  induction u generalizing pos with
  | nil => exact ⟨pos, h, rfl⟩
  | cons c u ih =>
    obtain ⟨pos', hr, hrun⟩ := ih (fun c hc => hu c (List.mem_cons_of_mem _ hc))
      (show html.drop (pos + 1) = u ++ r by rw [drop_at h]; rfl)
    refine ⟨pos', hr, ?_⟩
    rw [commandsFrom_cons h, hu c List.mem_cons_self, hrun]
    rfl

theorem mainStep_text {c : UInt8} (hc : isTextByte c) (pos : Nat) :
    mainStep html c pos = ([.byte c], pos + 1) := by
  have hall : ∀ c : UInt8, isTextByte c → c ≠ lt ∧ c ≠ amp ∧ isspace c = false ∧ ¬ c < 0x20 ∧
      textCmd c = .byte c := by decide +kernel
  obtain ⟨hlt, hamp, hspace, hctl, hcmd⟩ := hall c hc
  rw [mainStep, if_neg hlt, if_neg hamp, hspace, if_neg Bool.false_ne_true, if_neg hctl, hcmd]

/-- What the streaming version sends again is what the whole-buffer version takes for text. -/
theorem reaches_resend {s : List UInt8} {x : List Cmd × List UInt8} {pos : Nat}
    (h : html.drop pos = amp :: s) (hx : Stream.Resent s x)
    (hdec : decodeEntity html pos = ([.byte amp], pos + 1)) : Reaches html pos x.1 x.2 := by
  obtain ⟨u, hs, hcmds, hu⟩ := hx
  obtain ⟨pos', hr, hrun⟩ := reaches_map (f := .byte) (fun c hc => mainStep_text (hu c hc))
    (show html.drop (pos + 1) = u ++ x.2 by rw [drop_at h, ← hs]; rfl)
  refine ⟨pos', hr, ?_⟩
  rw [commandsFrom_cons h, mainStep, if_neg (by decide), if_pos rfl, hdec, hrun, hcmds]
  rfl

/-- A reference by name is looked for in the next eleven bytes. -/
theorem decodeEntity_name {c : UInt8} {s : List UInt8} (h : html.drop p = amp :: c :: s)
    (hc : c ≠ hash) {n : List UInt8}
    (hn : ((c :: s).take 11).takeWhile (· ≠ semicolon) = n) :
    decodeEntity html p =
      if n.length ≥ ((c :: s).take 11).length ∨ n = [] then ([.byte amp], p + 1)
      else (emitKnownEntity (n.map tolower), p + 1 + n.length + 1) := by
  have hdrop : html.drop (p + 1) = c :: s := by rw [drop_at h]; rfl
  have hhead : html[p + 1]? = some c := by rw [getElem?_at h]; rfl
  have hrest : html.length - (p + 1) = (c :: s).length := by rw [← hdrop, List.length_drop]
  have hlen : ¬ p + 1 ≥ html.length := by
    rw [List.length_cons] at hrest
    omega
  have hstop : min (p + 12) html.length - (p + 1) = min 11 (c :: s).length := by omega
  have hwindow : (html.take (min (p + 12) html.length)).drop (p + 1) = (c :: s).take 11 := by
    rw [List.drop_take, hdrop, hstop, Search.take_min]
  have hname : (c :: s).take n.length = n := by
    have hpre : n <+: c :: s := by
      rw [← hn]
      exact (List.takeWhile_prefix _).trans (List.take_prefix _ _)
    exact (List.prefix_iff_eq_take.mp hpre).symm
  rw [decodeEntity, if_neg hlen, hhead, if_neg (by simpa using hc)]
  simp only [hwindow, hn, hdrop, Nat.add_sub_cancel_left, hname]
  have hiff : (p + 1 + n.length ≥ min (p + 12) html.length ∨ p + 1 + n.length = p + 1) ↔
      (n.length ≥ ((c :: s).take 11).length ∨ n = []) := by
    rw [List.length_take, ← hstop, ← List.length_eq_zero_iff]
    omega
  simp only [hiff]

/-- A short name that ends in a semicolon is read by both versions. -/
theorem decodeEntity_named {n t : List UInt8} (h : html.drop p = amp :: (n ++ semicolon :: t))
    (hn : ∀ c ∈ n, isalnum c) (hne : n ≠ []) (hlen : n.length ≤ 10) :
    decodeEntity html p = (emitKnownEntity (n.map tolower), p + 1 + n.length + 1) ∧
      Stream.decodeEntity (n ++ semicolon :: t) = (emitKnownEntity (n.map tolower), t) := by
  obtain ⟨c, n, rfl⟩ := List.exists_cons_of_ne_nil hne
  have hc : c ≠ hash := by
    rintro rfl
    exact absurd (hn hash List.mem_cons_self) (by decide)
  have hname : ∀ d ∈ c :: n, d ≠ semicolon := by
    rintro d hd rfl
    exact absurd (hn semicolon hd) (by decide)
  -- the semicolon is among the eleven bytes that are searched for it
  have htake : (c :: n ++ semicolon :: t).take 11 =
      c :: n ++ (semicolon :: t).take (11 - (c :: n).length) := by
    rw [List.take_append, List.take_of_length_le (Nat.le_succ_of_le hlen)]
  have hsemi : (semicolon :: t).take (11 - (c :: n).length) =
      semicolon :: t.take (10 - (c :: n).length) := by
    rw [show 11 - (c :: n).length = 10 - (c :: n).length + 1 by omega, List.take_succ_cons]
  have hwindow : ((c :: n ++ semicolon :: t).take 11).takeWhile (· ≠ semicolon) = c :: n := by
    rw [htake, hsemi, List.takeWhile_append_of_pos (by simpa using hname),
      List.takeWhile_cons_of_neg (by decide), List.append_nil]
  constructor
  · refine (decodeEntity_name (s := n ++ semicolon :: t) h hc hwindow).trans (if_neg ?_)
    rw [← List.cons_append, htake, hsemi]
    simp
  · rw [List.cons_append, Stream.decodeEntity, if_neg hc,
      Stream.namedEntity_all hn (Nat.le_trans hlen (by decide))]

/-- A reference that both versions read, they read alike. -/
theorem decodeEntity_reaches {s : List UInt8} {pos : Nat} (h : html.drop pos = amp :: s)
    (href : Reference s) :
    Reaches html pos (Stream.decodeEntity s).1 (Stream.decodeEntity s).2 := by
  have hstep {x : List Cmd × Nat} {r : List UInt8} (hdec : decodeEntity html pos = x)
      (hr : html.drop x.2 = r) : Reaches html pos x.1 r := by
    refine ⟨x.2, hr, ?_⟩
    rw [commandsFrom_cons h, mainStep, if_neg (by decide), if_pos rfl, hdec]
  cases href with
  | @number base u ds t hu hds hne hlen hval =>
    obtain ⟨hdrop, hstream, hwhole⟩ := decodeEntity_number hu (s := ds ++ semicolon :: t) (by
      rintro rfl
      cases ds with
      | nil => exact absurd rfl hne
      | cons d ds =>
        have hd := hds d List.mem_cons_self
        rintro (hd' | hd') <;> cases hd' <;> cases hd) h
    have hroom := hu.length_le
    rw [hstream, Stream.numericDigits_all hu hds hne (by omega) hval]
    rw [numericDigits_all hdrop hds hne hval] at hwhole
    refine hstep hwhole ?_
    rw [Nat.add_assoc, drop_at hdrop, ← List.drop_drop, List.drop_left]
    rfl
  | @broken s hs =>
    obtain ⟨base, pre, s', hs', hpre, hx⟩ := exists_prefix s
    rw [hs'] at h ⊢
    have hbroken : ∀ ds t, Digits base ds → ds ≠ [] → s' ≠ ds ++ semicolon :: t :=
      fun ds t hds hne heq => hs base pre ds t hpre hds hne (by rw [hs', heq])
    obtain ⟨hdrop, hstream, hwhole⟩ := decodeEntity_number hpre hx h
    rw [hstream]
    exact reaches_resend h (Stream.numericDigits_resent hpre hbroken)
      (hwhole.trans (numericDigits_broken hdrop hbroken))
  | @named n t hn hne hlen =>
    obtain ⟨hwhole, hstream⟩ := decodeEntity_named h hn hne hlen
    rw [hstream]
    refine hstep hwhole ?_
    rw [show pos + 1 + n.length + 1 = pos + (1 + (n.length + 1)) by omega, drop_at h,
      ← List.drop_drop, ← List.drop_drop]
    exact congrArg (List.drop 1) List.drop_left
  | @empty t =>
    have hdec : decodeEntity html pos = ([.byte amp], pos + 1) :=
      (decodeEntity_name (n := []) h (by decide) rfl).trans (if_pos (.inr rfl))
    refine reaches_resend h (Stream.namedEntity_resent fun n t hn hne heq => ?_) hdec
    obtain ⟨c, n, rfl⟩ := List.exists_cons_of_ne_nil hne
    rw [← (List.cons.inj heq).1] at hn
    exact absurd (hn semicolon List.mem_cons_self) (by decide)
  | @loose c s hc hsemi hrun =>
    have hall : ((c :: s).take 11).takeWhile (· ≠ semicolon) = (c :: s).take 11 := by
      rw [List.takeWhile_eq_self_iff]
      intro d hd
      simpa using fun heq : d = semicolon => hsemi (heq ▸ hd)
    have hdec : decodeEntity html pos = ([.byte amp], pos + 1) :=
      (decodeEntity_name h hc hall).trans (if_pos (.inl (Nat.le_refl _)))
    rw [Stream.decodeEntity, if_neg hc]
    refine reaches_resend h (Stream.namedEntity_resent fun n t hn _ heq => hrun ?_) hdec
    rw [heq, List.dropWhile_append_of_pos hn]
    rfl
  | last =>
    have hdec : decodeEntity html pos = ([.byte amp], pos + 1) := by
      have hlen := congrArg List.length h
      rw [List.length_drop, List.length_singleton] at hlen
      rw [decodeEntity, if_pos (by omega)]
    exact reaches_resend h ⟨[], rfl, rfl, by simp⟩ hdec

theorem mainStep_continuation {c : UInt8} (hc : Text.isContinuation c) (pos : Nat) :
    mainStep html c pos = ([.raw c], pos + 1) := by
  have hall : ∀ c : UInt8, Text.isContinuation c → c ≠ lt ∧ c ≠ amp ∧ isspace c = false ∧
      ¬ c < 0x20 ∧ textCmd c = .raw c := by decide +kernel
  obtain ⟨hlt, hamp, hspace, hctl, hcmd⟩ := hall c hc
  rw [mainStep, if_neg hlt, if_neg hamp, hspace, if_neg Bool.false_ne_true, if_neg hctl, hcmd]

/-- An ordinary byte, and the bytes of its character. -/
theorem text_reaches {c : UInt8} {s : List UInt8} {pos : Nat} (h : html.drop pos = c :: s)
    (hstep : mainStep html c pos = ([textCmd c], pos + 1)) (hled : Text.Led (c :: s)) :
    Reaches html pos (Stream.appendTextByte c s).1 ((Stream.appendTextByte c s).2.getD []) := by
  have hcmd : ∀ c : UInt8, textCmd c = if c < 0x80 then .byte c
      else if utf8CharLen c = 1 then .raw c else .lead (utf8CharLen c) c := by decide +kernel
  have hdrop : html.drop (pos + 1) = s := by rw [drop_at h]; rfl
  have hone {cmd : Cmd} (hc : textCmd c = cmd) : Reaches html pos [cmd] s :=
    ⟨pos + 1, hdrop, by rw [commandsFrom_cons h, hstep, hc]⟩
  have hlead := hcmd c
  rw [Stream.appendTextByte]
  split
  · next hascii => exact hone (hlead.trans (if_pos hascii))
  · next hascii =>
    rw [if_neg hascii] at hlead
    split
    · next hsingle => exact hone (hlead.trans (if_pos hsingle))
    · next hmulti =>
      rw [if_neg hmulti] at hlead
      obtain ⟨hlen, hcont⟩ := hled.1
      rw [if_pos hlen]
      obtain ⟨pos', hr, hrun⟩ := reaches_map (f := .raw)
        (fun d hd => mainStep_continuation (hcont d hd))
        (hdrop.trans (List.take_append_drop (utf8CharLen c - 1) s).symm)
      refine ⟨pos', hr, ?_⟩
      rw [commandsFrom_cons h, hstep, hlead, hrun]
      rfl

end Whole

/-! ## 2. The agreement -/

namespace Stream

/-- What one turn of the loop of `main` leaves unread. -/
def next : List UInt8 → List UInt8
  | [] => []
  | c :: s => (mainStep c s).2.getD []

/-- The loop of `main` comes to the bytes `t`. -/
def Visited (input t : List UInt8) : Prop := ∃ n, next^[n] input = t

theorem Visited.refl (s : List UInt8) : Visited s s := ⟨0, rfl⟩

theorem Visited.of_next {s t : List UInt8} (h : Visited (next s) t) : Visited s t :=
  h.imp' (· + 1) fun _ hn => hn

end Stream

/-- The closing tag of the element that a tag opens, if its contents are dropped, has no quotes. -/
def PlainClose (s : List UInt8) : Prop :=
  ∀ body t, (Stream.readTag s).skips → (Stream.readTag s).rest = some body →
    Search.behind tolower (Stream.closePat (Stream.readTag s).tn) body = some t → Whole.Unquoted t

/-- An input on which the versions agree. -/
structure Agreed (input : List UInt8) : Prop where
  references : ∀ t, Stream.Visited input (amp :: t) → Reference t
  closings : ∀ t, Stream.Visited input (lt :: t) → PlainClose t

theorem Agreed.next {s : List UInt8} (h : Agreed s) : Agreed (Stream.next s) :=
  ⟨fun t ht => h.references t ht.of_next, fun t ht => h.closings t ht.of_next⟩

theorem Stream.next_suffix (s : List UInt8) : Stream.next s <:+ s := by
  cases s with
  | nil => exact List.suffix_refl _
  | cons c s =>
    refine List.IsSuffix.trans ?_ (List.suffix_cons c s)
    rw [Stream.next]
    cases hrest : (Stream.mainStep c s).2 with
    | none => exact List.nil_suffix
    | some r => exact Stream.mainStep_suffix hrest

/-- One turn of the streaming version is some turns of the whole-buffer version. -/
theorem mainStep_reaches {html s : List UInt8} {c : UInt8} {pos : Nat}
    (h : html.drop pos = c :: s) (hagreed : Agreed (c :: s)) (hled : Text.Led (c :: s)) :
    Whole.Reaches html pos (Stream.mainStep c s).1 (Stream.next (c :: s)) := by
  have hmeets {x : List Cmd × Nat} (hstep : Whole.mainStep html c pos = x)
      (hx : Whole.Meets html x (Stream.mainStep c s)) :
      Whole.Reaches html pos (Stream.mainStep c s).1 (Stream.next (c :: s)) := by
    refine ⟨x.2, hx.2, ?_⟩
    rw [Whole.commandsFrom_cons h, hstep, hx.1]
  have hdrop : html.drop (pos + 1) = s := by rw [Whole.drop_at h]; rfl
  by_cases hlt : c = lt
  · subst hlt
    exact hmeets (x := Whole.handleTag html pos) rfl
      (Whole.handleTag_meets h (hagreed.closings s (.refl _)))
  by_cases hamp : c = amp
  · subst hamp
    exact Whole.decodeEntity_reaches h (hagreed.references s (.refl _))
  have hstream : Stream.mainStep c s = if isspace c then ([.space], some (s.dropWhile isspace))
      else if c < 0x20 then ([], some s) else Stream.appendTextByte c s := by
    rw [Stream.mainStep, if_neg hlt, if_neg hamp]
  have hwhole : Whole.mainStep html c pos = if isspace c then
      ([.space], Whole.scanWhile html isspace (pos + 1))
      else if c < 0x20 then ([], pos + 1) else ([Whole.textCmd c], pos + 1) := by
    rw [Whole.mainStep, if_neg hlt, if_neg hamp]
  by_cases hspace : isspace c
  · rw [if_pos hspace] at hstream hwhole
    refine hmeets hwhole ?_
    rw [hstream]
    exact ⟨rfl, Whole.drop_scanWhile hdrop _⟩
  rw [if_neg hspace] at hstream hwhole
  by_cases hctl : c < 0x20
  · rw [if_pos hctl] at hstream hwhole
    refine hmeets hwhole ?_
    rw [hstream]
    exact ⟨rfl, hdrop⟩
  rw [if_neg hctl] at hstream hwhole
  rw [Stream.next, hstream]
  exact Whole.text_reaches h hwhole hled

/-- From the same place on both versions do the same. -/
theorem commandsFrom_eq {html : List UInt8} (s : List UInt8) (pos : Nat)
    (h : html.drop pos = s) (hagreed : Agreed s) (hled : Text.Led s) :
    Whole.commandsFrom html pos = Stream.commands s := by
  induction hlen : s.length using Nat.strong_induction_on generalizing s pos with
  | _ n ih =>
    cases s with
    | nil => rw [Whole.commandsFrom_nil h, Stream.commands_nil]
    | cons c s =>
      obtain ⟨pos', hr, hrun⟩ := mainStep_reaches h hagreed hled
      have hsuffix := Stream.next_suffix (c :: s)
      have hshort : (Stream.next (c :: s)).length < n := by
        rw [← hlen]
        exact Nat.lt_succ_of_le (Stream.mainStep_length c s)
      rw [hrun, Stream.commands_cons, ih _ hshort _ pos' hr hagreed.next (hled.suffix hsuffix) rfl]
      rfl

/-- On valid UTF-8 both versions do the same. -/
theorem versions_agree (input : List UInt8) (hutf8 : Text.ValidUtf8 input)
    (hagreed : Agreed input) : Whole.main input = some (Stream.main input) := by
  have hrun := commandsFrom_eq input 0 rfl hagreed hutf8.led
  rw [Whole.main, Text.readAll_eq]
  change some (finish (Whole.commandsFrom input 0)) = _
  rw [hrun, Stream.main]

theorem Stream.visited_mem {L : List (List UInt8)} {input t : List UInt8} (hinput : input ∈ L)
    (hL : ∀ s ∈ L, next s ∈ L) (h : Visited input t) : t ∈ L := by
  obtain ⟨n, rfl⟩ := h
  induction n generalizing input with
  | zero => exact hinput
  | succ n ih => exact ih (hL input hinput)

/-- Two references, a skipped element and a character of two bytes. -/
def samplePage : List UInt8 :=
  "<b>&#233;&x <svg>\"</svg >é".toList.flatMap String.utf8EncodeChar

theorem samplePage_agreed : Agreed samplePage := by
  have hvisited {t : List UInt8} (h : Stream.Visited samplePage t) :
      t ∈ ([0, 3, 9, 11, 12, 25, 27] : List Nat).map samplePage.drop :=
    Stream.visited_mem (by decide +kernel) (by decide +kernel) h
  constructor
  · intro t ht
    have hall : ∀ s ∈ ([0, 3, 9, 11, 12, 25, 27] : List Nat).map samplePage.drop,
        s.head? = some amp → s.tail = [hash] ++ (bytes "233" ++ semicolon :: samplePage.drop 9) ∨
          s.tail = 0x78 :: samplePage.drop 11 := by
      decide +kernel
    rcases hall _ (hvisited ht) rfl with rfl | rfl
    · have hdigits : ∀ c ∈ bytes "233", (digitOf 10 c).isSome := by decide +kernel
      exact .number .decimal hdigits (by decide) (by decide) (by decide +kernel)
    · exact .loose (by decide) (by decide +kernel) (by decide +kernel)
  · intro t ht body u hskips hbody hbehind
    have hall : ∀ s ∈ ([0, 3, 9, 11, 12, 25, 27] : List Nat).map samplePage.drop,
        s.head? = some lt → (Stream.readTag s.tail).skips →
          (Stream.readTag s.tail).rest = some (samplePage.drop 17) ∧
            Search.behind tolower (Stream.closePat (Stream.readTag s.tail).tn)
              (samplePage.drop 17) = some (samplePage.drop 23) := by
      decide +kernel
    obtain ⟨hrest, hclose⟩ := hall _ (hvisited ht) rfl hskips
    obtain rfl : samplePage.drop 17 = body := Option.some.inj (hrest.symm.trans hbody)
    obtain rfl : samplePage.drop 23 = u := Option.some.inj (hclose.symm.trans hbehind)
    exact fun _ => by decide +kernel

theorem versions_agree_sample : Whole.main samplePage = some (Stream.main samplePage) :=
  versions_agree samplePage ⟨_, rfl⟩ samplePage_agreed

end H2t
