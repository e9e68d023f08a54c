import ZteWifi.Text.Fitting

/-!
# Room in the line buffer

A character of several bytes is appended behind one test for room, and the test may leave nearly a
whole line in the buffer.  The line can then be longer than `MAX_LINE`, but by three bytes at most:
what is kept of a line that was broken has no space, so a line that is too long has none but among
the bytes of its last character.
-/

open Ascii

namespace LineBuf

/-! ## 1. The invariant -/

/-- How many bytes of a character are still to be appended as they are behind a call. -/
def Cmd.pending (k : Nat) : Cmd → Nat
  | .lead n _ => n - 1
  | .raw _ => k - 1
  | _ => 0

def pendingAll (k : Nat) (cs : List Cmd) : Nat := cs.foldl Cmd.pending k

/-- A first byte that stands for as many bytes as a character can have. -/
def Cmd.Proper : Cmd → Prop
  | .lead n c => 1 ≤ n ∧ n ≤ 4 ∧ (c = Ascii.space → n = 1)
  | _ => True

/-- The line is never longer than this with `k` bytes of a character still to come. -/
structure Holds (k : Nat) (b : LineBuf) : Prop where
  pending_le : k ≤ 3
  length_le : b.line.length + k ≤ maxLine + 3
  spaces : maxLine < b.line.length + k → space ∉ b.line.take (b.line.length + k - 3)
  whole : b.truncated = false

theorem Holds.empty : Holds 0 .empty := ⟨by decide, by decide, fun _ => List.not_mem_nil, rfl⟩

theorem ne_space_of_not_ascii {c : UInt8} (hc : ¬ c < 0x80) : c ≠ space := by
  rintro rfl
  exact hc (by decide)

/-- A line that is not too long needs nothing else. -/
theorem Holds.of_length_le {b : LineBuf} (h : b.line.length ≤ maxLine) (hb : b.truncated = false) :
    Holds 0 b :=
  ⟨Nat.zero_le _, Nat.le_trans h (Nat.le_add_right _ _), fun hlt => absurd h (Nat.not_le.mpr hlt), hb⟩

theorem Holds.mono {k j : Nat} {b : LineBuf} (h : Holds k b) (hj : j ≤ k) : Holds j b := by
  refine ⟨Nat.le_trans hj h.pending_le, Nat.le_trans (by omega) h.length_le, fun hlt hmem => ?_,
    h.whole⟩
  refine h.spaces (by omega) (List.mem_of_mem_take (i := b.line.length + j - 3) ?_)
  rwa [List.take_take, Nat.min_eq_left (by omega)]

/-! ## 2. Appending -/

theorem appendByteNc_eq {b : LineBuf} (h : b.line.length ≤ maxLine + 3) (c : UInt8) :
    appendByteNc c b = { b with line := b.line ++ [c] } := by
  unfold appendByteNc
  rw [if_neg]
  simp only [maxLine, lineCap] at *
  omega

theorem appendAllNc_eq {cs : List UInt8} {b : LineBuf}
    (h : b.line.length + cs.length ≤ maxLine + 4) :
    appendAllNc cs b = { b with line := b.line ++ cs } := by
  induction cs generalizing b with
  | nil =>
    show b = { b with line := b.line ++ [] }
    rw [List.append_nil]
  | cons c cs ih =>
    rw [List.length_cons] at h
    show appendAllNc cs (appendByteNc c b) = _
    rw [appendByteNc_eq (by omega), ih, List.append_assoc, List.singleton_append]
    rw [List.length_append, List.length_singleton]
    omega

/-- The next byte of a character. -/
theorem Holds.appendByteNc {k : Nat} {b : LineBuf} (h : Holds (k + 1) b) (c : UInt8) :
    Holds k (appendByteNc c b) := by
  have hlen := h.length_le
  have hpending := h.pending_le
  rw [appendByteNc_eq (by omega)]
  refine ⟨by omega, ?_, fun hlt => ?_, h.whole⟩
  · rw [List.length_append, List.length_singleton]
    omega
  · -- the byte is one of the last three
    simp only [List.length_append, List.length_singleton] at hlt ⊢
    rw [List.take_append_of_le_length (by omega), Nat.add_right_comm]
    exact h.spaces (by omega)

/-- A line that was too long keeps only bytes of its last character when it is broken. -/
theorem Holds.length_kept {b : LineBuf} (h : Holds 0 b) :
    (breakLine b.line).2.length ≤ maxLine - 1 := by
  have hlen := h.length_le
  by_cases hlong : maxLine < b.line.length
  · have hspaces := h.spaces hlong
    rw [Nat.add_zero] at hspaces
    rcases breakLine_cases b.line with ⟨-, heq⟩ | ⟨p, q, hline, -, heq⟩
    · rw [heq]
      exact Nat.zero_le _
    · have hp : b.line.length - 3 ≤ p.length := by
        by_contra hlt
        obtain ⟨n, hn⟩ := Nat.exists_eq_add_of_lt (Nat.not_le.mp hlt)
        rw [hn, hline, Nat.add_assoc, List.take_length_add_append] at hspaces
        exact hspaces (List.mem_append_right p List.mem_cons_self)
      have hlength := congrArg List.length hline
      rw [List.length_append, List.length_cons] at hlength
      rw [heq]
      show q.length ≤ _
      simp only [maxLine] at *
      omega
  · have hkept := length_kept_le b.line
    simp only [maxLine] at *
    omega

/-- After the test for room: the character fits, or the line is the rest of one that was broken. -/
theorem Holds.reserve {b : LineBuf} (h : Holds 0 b) (n : Nat) :
    (reserve n b).truncated = false ∧ ((reserve n b).line.length + n ≤ maxLine ∨
      space ∉ (reserve n b).line ∧ (reserve n b).line.length ≤ maxLine - 1) := by
  unfold LineBuf.reserve
  by_cases hroom : b.line.length + n > maxLine
  · rw [if_pos hroom, wrapLine_eq]
    exact ⟨h.whole, .inr ⟨space_notMem_kept _, h.length_kept⟩⟩
  · rw [if_neg hroom]
    exact ⟨h.whole, .inl (Nat.not_lt.mp hroom)⟩

theorem Holds.lead {b : LineBuf} (h : Holds 0 b) {n : Nat} {c : UInt8} (hn : 1 ≤ n) (hn' : n ≤ 4)
    (hc : c = space → n = 1) : Holds (n - 1) (LineBuf.appendByteNc c (LineBuf.reserve n b)) := by
  obtain ⟨hwhole, hroom⟩ := h.reserve n
  generalize LineBuf.reserve n b = b' at hwhole hroom
  have hlen : b'.line.length ≤ maxLine + 3 := by
    simp only [maxLine] at *
    omega
  rw [appendByteNc_eq hlen]
  refine ⟨by omega, ?_, fun hlt => ?_, hwhole⟩
  · rw [List.length_append, List.length_singleton]
    simp only [maxLine] at *
    omega
  -- the line is what was kept of another one, so it has no space
  · rw [List.length_append, List.length_singleton] at hlt
    obtain ⟨hspace, hle⟩ := hroom.resolve_left (by omega)
    intro hmem
    rcases List.mem_append.mp (List.mem_of_mem_take hmem) with hmem | hmem
    · exact hspace hmem
    · have hone := hc (List.mem_singleton.mp hmem).symm
      simp only [maxLine] at *
      omega

theorem Holds.appendByte {b : LineBuf} (h : Holds 0 b) (c : UInt8) :
    Holds 0 (LineBuf.appendByte c b) := by
  rw [appendByte_eq]
  exact h.lead (Nat.le_refl 1) (by decide) fun _ => rfl

theorem Holds.appendAllNc {b : LineBuf} {cs : List UInt8} (h : Holds cs.length b) :
    Holds 0 (LineBuf.appendAllNc cs b) := by
  induction cs generalizing b with
  | nil => exact h
  | cons c cs ih => exact ih (h.appendByteNc c)

theorem Holds.flushLine {k : Nat} {b : LineBuf} (h : Holds k b) : Holds 0 (LineBuf.flushLine b) := by
  unfold LineBuf.flushLine
  dsimp only
  split <;> exact .of_length_le (Nat.zero_le _) h.whole

theorem Holds.appendStrLoop {k : Nat} {b : LineBuf} (h : Holds k b) (s : List UInt8) :
    Holds 0 (LineBuf.appendStrLoop k s b) := by
  induction s generalizing k b with
  | nil => cases k <;> exact h.mono (Nat.zero_le _)
  | cons c s ih =>
    cases k with
    | succ k => exact ih (h.appendByteNc c)
    | zero =>
      rw [LineBuf.appendStrLoop]
      split
      · exact ih (h.appendByte c)
      · next hc =>
        exact ih (h.lead (utf8CharLen_pos c) (utf8CharLen_le c) fun heq =>
          absurd heq (ne_space_of_not_ascii hc))

/-- The bytes of a code point. -/
theorem utf8Bytes_cons (cp : Nat) : ∃ c cs, utf8Bytes cp = c :: cs ∧ cs.length ≤ 3 ∧
    (c = space → cs = []) := by
  have hlead : ∀ b : UInt8, 0xC0 ||| b ≠ space ∧ 0xE0 ||| b ≠ space ∧ 0xF0 ||| b ≠ space := by
    decide +kernel
  unfold utf8Bytes
  split
  · exact ⟨_, [], rfl, Nat.zero_le _, fun _ => rfl⟩
  split
  · refine ⟨_, _, rfl, Nat.le_of_ble_eq_true rfl, fun heq => absurd heq ?_⟩
    rw [UInt8.ofNat_or]
    exact (hlead _).1
  split
  · refine ⟨_, _, rfl, Nat.le_of_ble_eq_true rfl, fun heq => absurd heq ?_⟩
    rw [UInt8.ofNat_or]
    exact (hlead _).2.1
  · refine ⟨_, _, rfl, Nat.le_of_ble_eq_true rfl, fun heq => absurd heq ?_⟩
    rw [UInt8.ofNat_or]
    exact (hlead _).2.2

theorem utf8Bytes_ascii {cp : Nat} (h : cp < 0x80) : utf8Bytes cp = [UInt8.ofNat cp] := if_pos h

theorem utf8Bytes_ge {cp : Nat} (h : ¬ cp < 0x80) : ∀ c ∈ utf8Bytes cp, 0x80 ≤ c := by
  -- the marks of the first byte and of the others are in the high bits
  have hor : ∀ b : UInt8, 0x80 ≤ 0x80 ||| b ∧ 0x80 ≤ 0xC0 ||| b ∧ 0x80 ≤ 0xE0 ||| b ∧
      0x80 ≤ 0xF0 ||| b := by decide +kernel
  unfold utf8Bytes
  rw [if_neg h]
  split
  · simp only [List.forall_mem_cons, UInt8.ofNat_or]
    exact ⟨(hor _).2.1, (hor _).1, List.forall_mem_nil _⟩
  split
  · simp only [List.forall_mem_cons, UInt8.ofNat_or]
    exact ⟨(hor _).2.2.1, (hor _).1, (hor _).1, List.forall_mem_nil _⟩
  · simp only [List.forall_mem_cons, UInt8.ofNat_or]
    exact ⟨(hor _).2.2.2, (hor _).1, (hor _).1, (hor _).1, List.forall_mem_nil _⟩

/-- An ASCII character stands for itself alone. -/
theorem eq_of_mem_utf8Bytes {c : UInt8} (hc : c < 0x80) {cp : Nat} (h : c ∈ utf8Bytes cp) :
    cp = c.toNat := by
  by_cases hascii : cp < 0x80
  · rw [utf8Bytes_ascii hascii, List.mem_singleton] at h
    rw [h, UInt8.toNat_ofNat', Nat.mod_eq_of_lt (by omega)]
  · exact absurd (utf8Bytes_ge hascii c h) (UInt8.not_le.mpr hc)

theorem Holds.appendUtf8 {b : LineBuf} (h : Holds 0 b) (cp : Nat) :
    Holds 0 (LineBuf.appendUtf8 cp b) := by
  obtain ⟨c, cs, hbytes, hlen, hspace⟩ := utf8Bytes_cons cp
  rw [LineBuf.appendUtf8, hbytes]
  have hlead : Holds cs.length (LineBuf.appendByteNc c (LineBuf.reserve (cs.length + 1) b)) := by
    refine h.lead (n := cs.length + 1) (Nat.le_add_left _ _) (Nat.succ_le_succ hlen) fun hc => ?_
    rw [hspace hc]
    rfl
  exact hlead.appendAllNc

theorem Holds.outputIndent {k : Nat} {b : LineBuf} (h : Holds k b) (depth : Nat) :
    Holds 0 (LineBuf.outputIndent depth b) := by
  rw [outputIndent_eq]
  refine .of_length_le ?_ h.whole
  rw [List.length_replicate]
  exact Nat.le_trans (indentWidth_le depth) (Nat.div_le_self _ _)

/-- If the call appends a byte that belongs to no character, the byte finds room. -/
def Cmd.FindsRoom (k : Nat) (b : LineBuf) : Cmd → Prop
  | .raw _ => k = 0 → b.line.length < maxLine
  | _ => True

instance (k : Nat) (b : LineBuf) (c : Cmd) : Decidable (c.FindsRoom k b) :=
  match c with
  | .raw _ => inferInstanceAs (Decidable (_ → _))
  | .byte _ | .lead _ _ | .str _ | .space | .utf8 _ | .indent _ | .flush => .isTrue trivial

theorem Cmd.FindsRoom.of_raw {k : Nat} {b : LineBuf} {c : Cmd}
    (h : ∀ x, c = .raw x → k = 0 → b.line.length < maxLine) : c.FindsRoom k b := by
  cases c with
  | raw x => exact h x rfl
  | _ => trivial

/-- The invariant is kept by every call, if a byte that belongs to no character finds room. -/
theorem Holds.exec {k : Nat} {b : LineBuf} (h : Holds k b) (c : Cmd) (hc : c.Proper)
    (hroom : c.FindsRoom k b) : Holds (c.pending k) (exec c b) := by
  have h₀ := h.mono (Nat.zero_le k)
  cases c with
  | byte c => exact h₀.appendByte c
  | raw c =>
    cases k with
    | succ k => exact h.appendByteNc c
    | zero =>
      have hlen : b.line.length < maxLine := hroom rfl
      show Holds 0 (LineBuf.appendByteNc c b)
      rw [appendByteNc_eq (by omega)]
      refine .of_length_le ?_ h.whole
      rw [List.length_append, List.length_singleton]
      omega
  | lead n c => exact h₀.lead hc.1 hc.2.1 hc.2.2
  | str s => exact h₀.appendStrLoop s
  | space =>
    show Holds 0 (appendSpace b)
    unfold appendSpace
    split
    · exact h₀.appendByte space
    · exact h₀
  | utf8 cp => exact h₀.appendUtf8 cp
  | indent d => exact h.outputIndent d
  | flush => exact h.flushLine

/-! ## 3. Whole runs -/

/-- In a run every byte that belongs to no character finds room. -/
def Roomy (k : Nat) (cs : List Cmd) (b : LineBuf) : Prop :=
  ∀ ds x es, cs = ds ++ .raw x :: es → pendingAll k ds = 0 →
    (execAll ds b).line.length < maxLine

theorem roomy_cons {k : Nat} {c : Cmd} {cs : List Cmd} {b : LineBuf} :
    Roomy k (c :: cs) b ↔ c.FindsRoom k b ∧ Roomy (c.pending k) cs (exec c b) := by
  constructor
  · intro h
    refine ⟨.of_raw fun x hx hk => h [] x cs (by rw [hx]; rfl) hk, fun ds x es heq hk => ?_⟩
    exact h (c :: ds) x es (by rw [heq]; rfl) hk
  · rintro ⟨hhead, htail⟩ ds x es heq hk
    cases ds with
    | nil =>
      obtain ⟨rfl, -⟩ := List.cons.inj heq
      exact hhead hk
    | cons d ds =>
      obtain ⟨rfl, hcs⟩ := List.cons.inj heq
      exact htail ds x es hcs hk

instance Roomy.decidable : (k : Nat) → (cs : List Cmd) → (b : LineBuf) → Decidable (Roomy k cs b)
  | _, [], _ => .isTrue fun _ _ _ heq => absurd heq (by simp)
  | k, c :: cs, b =>
    have := Roomy.decidable (c.pending k) cs (exec c b)
    decidable_of_iff _ roomy_cons.symm

theorem Holds.execAll {k : Nat} {b : LineBuf} (h : Holds k b) {cs : List Cmd}
    (hcs : ∀ c ∈ cs, c.Proper) (hroom : Roomy k cs b) :
    Holds (pendingAll k cs) (LineBuf.execAll cs b) := by
  induction cs generalizing k b with
  | nil => exact h
  | cons c cs ih =>
    obtain ⟨hhead, htail⟩ := roomy_cons.mp hroom
    have hstep : Holds (c.pending k) (LineBuf.exec c b) :=
      h.exec c (hcs c List.mem_cons_self) hhead
    exact ih hstep (fun d hd => hcs d (List.mem_cons_of_mem _ hd)) htail

theorem Roomy.of_prefix {k : Nat} {cs ds : List Cmd} {b : LineBuf} (h : Roomy k cs b)
    (hds : ds <+: cs) : Roomy k ds b := by
  obtain ⟨es, rfl⟩ := hds
  intro ds' x es' heq
  exact h ds' x (es' ++ es) (by rw [heq, List.append_assoc]; rfl)

/-- In such calls every byte that is appended as it is belongs to a character. -/
def Paced : Nat → List Cmd → Prop
  | _, [] => True
  | k, c :: cs => c.Proper ∧ (∀ x, c = .raw x → k ≠ 0) ∧ Paced (c.pending k) cs

theorem Cmd.pending_mono {k j : Nat} (h : k ≤ j) (c : Cmd) : c.pending k ≤ c.pending j := by
  cases c with
  | raw x => exact Nat.sub_le_sub_right h 1
  | _ => exact Nat.le_refl _

theorem Paced.mono {k j : Nat} {cs : List Cmd} (h : Paced k cs) (hj : k ≤ j) : Paced j cs := by
  induction cs generalizing k j with
  | nil => trivial
  | cons c cs ih =>
    refine ⟨h.1, fun x hx hzero => h.2.1 x hx ?_, ih h.2.2 (c.pending_mono hj)⟩
    omega

theorem Paced.append {k : Nat} {cs ds : List Cmd} (h : Paced k cs) (h' : Paced 0 ds) :
    Paced k (cs ++ ds) := by
  induction cs generalizing k with
  | nil => exact h'.mono (Nat.zero_le k)
  | cons c cs ih => exact ⟨h.1, h.2.1, ih h.2.2⟩

theorem Paced.proper {k : Nat} {cs : List Cmd} (h : Paced k cs) : ∀ c ∈ cs, c.Proper := by
  induction cs generalizing k with
  | nil => exact List.forall_mem_nil _
  | cons c cs ih => exact List.forall_mem_cons.mpr ⟨h.1, ih h.2.2⟩

theorem Paced.of_prefix {k : Nat} {cs ds : List Cmd} (h : Paced k cs) (hds : ds <+: cs) :
    Paced k ds := by
  induction ds generalizing k cs with
  | nil => trivial
  | cons c ds ih =>
    obtain ⟨es, rfl⟩ := hds
    exact ⟨h.1, h.2.1, ih h.2.2 (List.prefix_append ds es)⟩

/-- Then no byte needs room of its own. -/
theorem Paced.roomy {k : Nat} {cs : List Cmd} (h : Paced k cs) (b : LineBuf) : Roomy k cs b := by
  intro ds x es heq hzero
  induction ds generalizing k cs b with
  | nil =>
    subst heq
    exact absurd hzero (h.2.1 x rfl)
  | cons d ds ih =>
    subst heq
    exact ih h.2.2 (exec d b) rfl hzero

theorem paced_raws {k : Nat} {cs : List UInt8} (h : cs.length ≤ k) : Paced k (cs.map .raw) := by
  induction cs generalizing k with
  | nil => trivial
  | cons c cs ih =>
    rw [List.length_cons] at h
    exact ⟨trivial, fun _ _ => by omega, ih (show cs.length ≤ k - 1 by omega)⟩

/-! ## 4. What is appended is printed -/

/-- The bytes that are not folded. -/
def solid (s : List UInt8) : List UInt8 := s.filter (· ≠ space)

/-- The bytes that are not folded or used to end lines. -/
def visible (s : List UInt8) : List UInt8 := s.filter fun c => c ≠ space ∧ c ≠ nl

/-- What has been written, and what stands in the line. -/
def content (b : LineBuf) : List UInt8 := b.stdout ++ b.line

/-- The bytes that a call appends. -/
def Cmd.appended : Cmd → List UInt8
  | .byte c | .raw c | .lead _ c => [c]
  | .str s => s
  | .space => [Ascii.space]
  | .utf8 cp => utf8Bytes cp
  | .indent d => List.replicate (indentWidth d) Ascii.space
  | .flush => []

theorem solid_append (s t : List UInt8) : solid (s ++ t) = solid s ++ solid t := List.filter_append ..

theorem solid_space (s : List UInt8) : solid (space :: s) = solid s := rfl

theorem solid_rdropWhile (s : List UInt8) : solid (s.rdropWhile (· = space)) = solid s := by
  induction s using List.reverseRecOn with
  | nil => rfl
  | append_singleton s c ih =>
    by_cases hc : c = space
    · rw [List.rdropWhile_concat_pos _ _ _ (by simpa using hc), ih, solid_append, hc]
      exact (List.append_nil _).symm
    · rw [List.rdropWhile_concat_neg _ _ _ (by simpa using hc)]

/-- From `b` to `b'` these lines have been written and these bytes appended, unless the flag says
otherwise. -/
def Adds (u : List UInt8) (b : LineBuf) (ls : List Line) (b' : LineBuf) : Prop :=
  b'.truncated = false → b.truncated = false ∧
    solid (ls.flatten ++ b'.line) = solid (b.line ++ u)

theorem Adds.refl (b : LineBuf) : Adds [] b [] b := fun h => ⟨h, by rw [List.append_nil]; rfl⟩

theorem Adds.trans {u v : List UInt8} {b b' b'' : LineBuf} {ls ms : List Line}
    (h : Adds u b ls b') (h' : Adds v b' ms b'') : Adds (u ++ v) b (ls ++ ms) b'' := by
  intro hwhole
  obtain ⟨hwhole', hv⟩ := h' hwhole
  obtain ⟨hwhole'', hu⟩ := h hwhole'
  refine ⟨hwhole'', ?_⟩
  calc solid ((ls ++ ms).flatten ++ b''.line)
      = solid ls.flatten ++ solid (ms.flatten ++ b''.line) := by
        rw [List.flatten_append, List.append_assoc, solid_append]
    _ = solid (ls.flatten ++ b'.line) ++ solid v := by
        rw [hv, solid_append, solid_append, List.append_assoc]
    _ = solid (b.line ++ (u ++ v)) := by
        rw [hu, ← solid_append, List.append_assoc]

theorem adds_appendByteNc (c : UInt8) (b : LineBuf) : Adds [c] b [] (appendByteNc c b) := by
  intro hwhole
  unfold appendByteNc at hwhole ⊢
  split at hwhole
  · cases hwhole
  · next hfull =>
    rw [if_neg hfull]
    exact ⟨hwhole, rfl⟩

theorem solid_breakLine (l : Line) : solid (breakLine l).1 ++ solid (breakLine l).2 = solid l := by
  rcases breakLine_cases l with ⟨-, heq⟩ | ⟨p, q, hline, -, heq⟩
  · rw [heq]
    exact List.append_nil _
  · rw [heq, hline, solid_rdropWhile, solid_append, solid_space]

theorem adds_reserve (n : Nat) (b : LineBuf) :
    Adds [] b (roomLines n b.line) (reserve n b) := by
  unfold reserve roomLines
  split
  · intro hwhole
    rw [wrapLine_eq] at hwhole ⊢
    refine ⟨hwhole, ?_⟩
    rw [List.flatten_singleton, solid_append, solid_breakLine, List.append_nil]
  · exact .refl b

theorem adds_lead (n : Nat) (c : UInt8) (b : LineBuf) :
    Adds [c] b (roomLines n b.line) (appendByteNc c (reserve n b)) := by
  have h := (adds_reserve n b).trans (adds_appendByteNc c _)
  rwa [List.append_nil] at h

theorem adds_appendByte (c : UInt8) (b : LineBuf) :
    Adds [c] b (roomLines 1 b.line) (appendByte c b) := by
  rw [appendByte_eq]
  exact adds_lead 1 c b

theorem adds_appendAllNc (cs : List UInt8) (b : LineBuf) : Adds cs b [] (appendAllNc cs b) := by
  induction cs generalizing b with
  | nil => exact .refl b
  | cons c cs ih => exact (adds_appendByteNc c b).trans (ih _)

theorem adds_appendStrLoop (n : Nat) (s : List UInt8) (b : LineBuf) :
    Adds s b (strLines n s b) (appendStrLoop n s b) := by
  induction s generalizing n b with
  | nil => cases n <;> exact .refl b
  | cons c s ih =>
    cases n with
    | succ n => exact (adds_appendByteNc c b).trans (ih _ _)
    | zero =>
      rw [appendStrLoop, strLines]
      split
      · exact (adds_appendByte c b).trans (ih _ _)
      · exact (adds_lead _ c b).trans (ih _ _)

theorem adds_flushLine (b : LineBuf) : Adds [] b (flushLines b.line) (flushLine b) := by
  intro hwhole
  have hsolid := solid_rdropWhile b.line
  unfold flushLine at hwhole ⊢
  unfold flushLines
  dsimp only at hwhole ⊢
  split at hwhole
  · next hnil =>
    rw [hnil] at hsolid
    rw [if_pos hnil, if_pos hnil, List.append_nil, List.append_nil]
    exact ⟨hwhole, hsolid⟩
  · next hnil =>
    rw [if_neg hnil, if_neg hnil, List.flatten_singleton, List.append_nil, List.append_nil]
    exact ⟨hwhole, hsolid⟩

/-- A call adds the bytes it appends, and nothing else. -/
theorem adds_exec (c : Cmd) (b : LineBuf) : Adds c.appended b (lines c b) (exec c b) := by
  cases c with
  | byte c => exact adds_appendByte c b
  | raw c => exact adds_appendByteNc c b
  | lead n c => exact adds_lead n c b
  | str s => exact adds_appendStrLoop 0 s b
  | space =>
    show Adds [space] b (lines .space b) (appendSpace b)
    rw [appendSpace, lines]
    split
    · exact adds_appendByte space b
    · intro hwhole
      refine ⟨hwhole, ?_⟩
      rw [List.flatten_nil, List.nil_append, solid_append]
      exact (List.append_nil _).symm
  | utf8 cp =>
    have h := (adds_reserve (utf8Bytes cp).length b).trans (adds_appendAllNc (utf8Bytes cp) _)
    rw [List.append_nil] at h
    exact h
  | indent d =>
    show Adds _ b (flushLines b.line) (outputIndent d b)
    unfold outputIndent
    split
    · have h := (adds_flushLine b).trans
        (adds_appendAllNc (List.replicate (indentWidth d) space) (flushLine b))
      rwa [List.append_nil] at h
    · next hlen =>
      have hnil : b.line = [] := List.eq_nil_of_length_eq_zero (Nat.eq_zero_of_not_pos hlen)
      rw [hnil]
      exact adds_appendAllNc _ b
  | flush => exact adds_flushLine b

theorem adds_execAll (cs : List Cmd) (b : LineBuf) :
    Adds (cs.flatMap Cmd.appended) b (linesAll cs b) (execAll cs b) := by
  induction cs generalizing b with
  | nil => exact .refl b
  | cons c cs ih => exact (adds_exec c b).trans (ih _)

theorem visible_eq (s : List UInt8) : visible s = (solid s).filter (· ≠ nl) := by
  rw [solid, List.filter_filter]
  refine List.filter_congr fun c _ => ?_
  rw [Bool.decide_and, Bool.and_comm]

theorem visible_append (s t : List UInt8) : visible (s ++ t) = visible s ++ visible t :=
  List.filter_append ..

theorem visible_printed (ls : List Line) : visible (printed ls) = visible ls.flatten := by
  induction ls with
  | nil => rfl
  | cons l ls ih =>
    have hcons : printed (l :: ls) = l ++ [nl] ++ printed ls := rfl
    rw [hcons, visible_append, visible_append, ih, List.flatten_cons, visible_append]
    exact congrArg (· ++ _) (List.append_nil _)

/-- A run that loses nothing has printed, or keeps, what it has appended. -/
theorem visible_execAll {cs : List Cmd} (h : (execAll cs .empty).truncated = false) :
    visible (execAll cs .empty).content = visible (cs.flatMap Cmd.appended) := by
  obtain ⟨-, hsolid⟩ := adds_execAll cs .empty h
  have hstdout : (execAll cs .empty).stdout = printed (linesAll cs .empty) := execAll_stdout cs .empty
  rw [content, hstdout, visible_append, visible_printed, ← visible_append, visible_eq, hsolid,
    visible_eq]
  rfl

end LineBuf
