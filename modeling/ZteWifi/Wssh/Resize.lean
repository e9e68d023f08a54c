import Mathlib.Data.Nat.Digits.Lemmas
import ZteWifi.Wssh.Delivery

/-!
# The size of the window

`sendSize` of `wssh.html` announces the size of the page's window as a text message, which
`ws_session` is to take out of what the user types.  It does so for sizes below 500 only.
-/

open Ascii Net

namespace Wssh

/-! ## 1. The message of the page -/

def decimalDigit (d : Nat) : UInt8 := UInt8.ofNat (0x30 + d)

/-- A number above 0 in decimal. -/
def decimal (n : Nat) : List UInt8 := (Nat.digits 10 n).reverse.map decimalDigit

/-- `JSON.stringify` of the object that `sendSize` makes. -/
def resizeMessage (cols rows : Nat) : List UInt8 :=
  bytes "\x7b\"type\":\"resize\",\"cols\":" ++ (decimal cols ++
    (bytes ",\"rows\":" ++ (decimal rows ++ bytes "\x7d")))

/-- `sendSize` while the connection is open: the text that is sent. -/
def sendSize (cols rows : Nat) : Option (List UInt8) :=
  if cols > 0 ∧ rows > 0 then some (resizeMessage cols rows) else none

/-! ## 2. Numbers -/

theorem decimalDigit_toNat : ∀ {d : Nat}, d < 10 → (decimalDigit d).toNat = 0x30 + d := by
  decide

theorem decimalDigit_isdigit : ∀ {d : Nat}, d < 10 → isdigit (decimalDigit d) = true := by
  decide

theorem decimal_isdigit (n : Nat) : ∀ c ∈ decimal n, isdigit c = true := by
  intro c hc
  unfold decimal at hc
  obtain ⟨d, hd, rfl⟩ := List.mem_map.mp hc
  apply decimalDigit_isdigit
  exact Nat.digits_lt_base (by decide) (List.mem_reverse.mp hd)

theorem decimal_length (n : Nat) : (decimal n).length = (Nat.digits 10 n).length := by
  rw [decimal, List.length_map, List.length_reverse]

theorem decimal_ne_nil {n : Nat} (h : 0 < n) : decimal n ≠ [] := by
  intro hnil
  have hlen := decimal_length n
  rw [hnil, List.length_nil] at hlen
  have hdigits := List.eq_nil_of_length_eq_zero hlen.symm
  exact Nat.ne_of_gt h (Nat.digits_eq_nil_iff_eq_zero.mp hdigits)

theorem strtol_digits (ds : List Nat) (h : ∀ d ∈ ds, d < 10) :
    strtol (ds.reverse.map decimalDigit) = min longMax (Nat.ofDigits 10 ds) := by
  unfold strtol
  congr 1
  induction ds with
  | nil => rfl
  | cons d ds ih =>
    have hd : d < 10 := h d List.mem_cons_self
    rw [List.reverse_cons, List.map_append, List.foldl_append,
      ih fun d hd => h d (List.mem_cons_of_mem _ hd), Nat.ofDigits_cons]
    simp only [List.map_cons, List.map_nil, List.foldl_cons, List.foldl_nil]
    rw [decimalDigit_toNat hd]
    omega

/-- Of a long number the first `k` digits are read. -/
theorem strtol_take_decimal (k n : Nat) :
    strtol ((decimal n).take k) = min longMax (n / 10 ^ ((decimal n).length - k)) := by
  have htake : (decimal n).take k =
      ((Nat.digits 10 n).drop ((decimal n).length - k)).reverse.map decimalDigit := by
    rw [decimal_length, decimal, ← List.map_take, List.take_reverse]
  rw [htake, strtol_digits, Nat.self_div_pow_eq_ofDigits_drop _ _ (by decide)]
  intro d hd
  exact Nat.digits_lt_base (by decide) (List.mem_of_mem_drop hd)

theorem strtol_take_decimal_of_lt {n : Nat} (h : n < 500) : strtol ((decimal n).take 31) = n := by
  have hlen : (decimal n).length ≤ 3 := by
    rw [decimal_length]
    exact (Nat.digits_length_le_iff (by decide) n).mpr (Nat.lt_trans h (by decide))
  rw [strtol_take_decimal, Nat.sub_eq_zero_of_le (Nat.le_trans hlen (by decide)), Nat.pow_zero,
    Nat.div_one]
  apply Nat.min_eq_right
  unfold longMax
  omega

/-- A number from 500 on is not read as one below, even when not all of its digits are read. -/
theorem le_strtol_take_decimal {n : Nat} (h : 500 ≤ n) : 500 ≤ strtol ((decimal n).take 31) := by
  have hpos : n ≠ 0 := by omega
  rw [strtol_take_decimal]
  apply Nat.le_min_of_le_of_le (by decide)
  rw [Nat.le_div_iff_mul_le (Nat.pow_pos (by decide))]
  by_cases hlen : (decimal n).length ≤ 31
  · rw [Nat.sub_eq_zero_of_le hlen]
    omega
  · -- with so many digits the number is beyond any `500 * 10 ^ (len - 31)`
    have hdigits : 10 ^ ((decimal n).length - 1) ≤ n := by
      have hle := Nat.base_pow_length_digits_le 10 n (by decide) hpos
      rw [← decimal_length] at hle
      have hsucc : (decimal n).length = (decimal n).length - 1 + 1 := by omega
      rw [hsucc, Nat.pow_succ'] at hle
      exact Nat.le_of_mul_le_mul_left hle (by decide)
    calc 500 * 10 ^ ((decimal n).length - 31)
        ≤ 10 ^ 3 * 10 ^ ((decimal n).length - 31) := Nat.mul_le_mul_right _ (by decide)
      _ = 10 ^ (3 + ((decimal n).length - 31)) := (Nat.pow_add _ _ _).symm
      _ ≤ 10 ^ ((decimal n).length - 1) := Nat.pow_le_pow_right (by decide) (by omega)
      _ ≤ n := hdigits

/-! ## 3. What `json_num` finds -/

theorem jsonNum_cons {key : List UInt8} {c : UInt8} {s : List UInt8} (h : ¬ key <+: c :: s) :
    jsonNum key (c :: s) = jsonNum key s := by
  rw [jsonNum, if_neg h]

/-- Bytes other than the first of the key are passed over. -/
theorem jsonNum_skip {q : UInt8} {key u : List UInt8} (s : List UInt8) (h : ∀ c ∈ u, c ≠ q) :
    jsonNum (q :: key) (u ++ s) = jsonNum (q :: key) s := by
  induction u with
  | nil => rfl
  | cons c u ih =>
    have hc : c ≠ q := h c List.mem_cons_self
    have hno : ¬ q :: key <+: c :: (u ++ s) := fun hpre => hc (List.cons_prefix_cons.mp hpre).1.symm
    rw [List.cons_append, jsonNum_cons hno]
    exact ih fun c hc => h c (List.mem_cons_of_mem _ hc)

theorem jsonNum_decimal {q c : UInt8} {key s : List UInt8} {n : Nat} (hn : 0 < n)
    (hc : isdigit c = false) :
    jsonNum (q :: key) (q :: key ++ (decimal n ++ c :: s)) =
      if strtol ((decimal n).take 31) > 0 then some (strtol ((decimal n).take 31))
      else jsonNum (q :: key) (key ++ (decimal n ++ c :: s)) := by
  obtain ⟨d, ds, hds⟩ := List.exists_cons_of_ne_nil (decimal_ne_nil hn)
  have hd : isdigit d = true := decimal_isdigit n d (by rw [hds]; exact List.mem_cons_self)
  have hspace : ((decimal n ++ c :: s).dropWhile fun c => c = space ∨ c = 0x09) =
      decimal n ++ c :: s := by
    have hno : decide (d = space ∨ d = 0x09) = false := by
      apply decide_eq_false
      rintro (rfl | rfl) <;> exact absurd hd (by decide)
    rw [hds, List.cons_append, List.dropWhile_cons_of_neg (by rw [hno]; decide)]
  have hdigits : (decimal n ++ c :: s).takeWhile isdigit = decimal n := by
    rw [List.takeWhile_append_of_pos (decimal_isdigit n),
      List.takeWhile_cons_of_neg (by rw [hc]; decide), List.append_nil]
  have htake : (decimal n).take 31 ≠ [] := by
    rw [hds, List.take_succ_cons]
    exact List.cons_ne_nil _ _
  rw [List.cons_append, jsonNum, ← List.cons_append, if_pos (List.prefix_append _ _)]
  simp only [List.drop_left, hspace, hdigits, ne_eq, htake, not_false_eq_true, true_and]

theorem strtol_take_decimal_pos {n : Nat} (hn : 0 < n) : strtol ((decimal n).take 31) > 0 := by
  by_cases h : n < 500
  · rw [strtol_take_decimal_of_lt h]
    exact hn
  · exact Nat.lt_of_lt_of_le (by decide) (le_strtol_take_decimal (Nat.le_of_not_lt h))

theorem decimal_ne_quote (n : Nat) : ∀ c ∈ decimal n, c ≠ quote := by
  rintro c hc rfl
  exact absurd (decimal_isdigit n _ hc) (by decide)

theorem jsonNum_cols {cols : Nat} (rows : Nat) (h : 0 < cols) :
    jsonNum (bytes "\"cols\":") (resizeMessage cols rows) =
      some (strtol ((decimal cols).take 31)) := by
  have hhead : bytes "\x7b\"type\":\"resize\",\"cols\":" =
      bytes "\x7b\"type\":\"resize\"," ++ quote :: bytes "cols\":" := by decide
  have hkey : bytes "\"cols\":" = quote :: bytes "cols\":" := by decide
  have hnext : bytes ",\"rows\":" = comma :: bytes "\"rows\":" := by decide
  have hskip : ∀ s, jsonNum (quote :: bytes "cols\":")
      (bytes "\x7b\"type\":\"resize\"," ++ quote :: s) =
        jsonNum (quote :: bytes "cols\":") (quote :: s) := by
    intro s
    simp [bytes, jsonNum_cons]
  unfold resizeMessage
  rw [hhead, hkey, hnext, List.append_assoc, List.cons_append, hskip, List.cons_append,
    ← List.cons_append, jsonNum_decimal h (by decide), if_pos (strtol_take_decimal_pos h)]

theorem jsonNum_rows (cols : Nat) {rows : Nat} (h : 0 < rows) :
    jsonNum (bytes "\"rows\":") (resizeMessage cols rows) =
      some (strtol ((decimal rows).take 31)) := by
  have hkey : bytes "\"rows\":" = quote :: bytes "rows\":" := by decide
  have hnext : bytes ",\"rows\":" = [comma] ++ quote :: bytes "rows\":" := by decide
  have hend : bytes "\x7d" = rbrace :: [] := by decide
  have hskip : ∀ s, jsonNum (quote :: bytes "rows\":")
      (bytes "\x7b\"type\":\"resize\",\"cols\":" ++ s) = jsonNum (quote :: bytes "rows\":") s := by
    intro s
    simp [bytes, jsonNum_cons]
  unfold resizeMessage
  rw [hkey, hnext, hend, hskip, jsonNum_skip _ (decimal_ne_quote cols), List.append_assoc,
    jsonNum_skip _ (List.forall_mem_singleton.mpr (by decide)), jsonNum_decimal h (by decide),
    if_pos (strtol_take_decimal_pos h)]

theorem ciHasN_resizeMessage (cols rows : Nat) :
    ciHasN (resizeMessage cols rows) (bytes "\"type\":\"resize\"") = true := by
  obtain ⟨s, hs⟩ : ∃ s, resizeMessage cols rows = lbrace :: (bytes "\"type\":\"resize\"" ++ s) :=
    ⟨bytes ",\"cols\":" ++ (decimal cols ++ (bytes ",\"rows\":" ++ (decimal rows ++ bytes "\x7d"))), rfl⟩
  have hno : ¬ (bytes "\"type\":\"resize\"").map tolower <+:
      tolower lbrace :: ((bytes "\"type\":\"resize\"").map tolower ++ s.map tolower) := by
    intro hpre
    exact absurd (List.cons_prefix_cons.mp hpre).1 (by decide)
  unfold ciHasN
  rw [hs, List.map_cons, List.map_append, Search.find, if_neg hno,
    Search.find_of_prefix (List.prefix_append _ _)]
  rfl

/-- The decoder accepts the sizes below 500. -/
theorem resizeTo_resizeMessage {cols rows : Nat} (hcols : 0 < cols) (hrows : 0 < rows) :
    resizeTo (resizeMessage cols rows) =
      if cols < 500 ∧ rows < 500 then some (cols, rows) else none := by
  have hhead : (resizeMessage cols rows).head? = some lbrace := rfl
  rw [resizeTo, if_pos hhead, jsonNum_cols rows hcols, jsonNum_rows cols hrows]
  simp only [ciHasN_resizeMessage, and_true]
  by_cases hsmall : cols < 500 ∧ rows < 500
  · rw [if_pos hsmall, strtol_take_decimal_of_lt hsmall.1, strtol_take_decimal_of_lt hsmall.2,
      if_pos hsmall]
  · rw [if_neg hsmall, if_neg]
    intro hread
    apply hsmall
    constructor
    · by_contra hlarge
      have hle := le_strtol_take_decimal (Nat.le_of_not_lt hlarge)
      omega
    · by_contra hlarge
      have hle := le_strtol_take_decimal (Nat.le_of_not_lt hlarge)
      omega

/-! ## 4. What becomes of the message -/

/-- A text frame in which the page has sent its size. -/
def SizeFrame (cols rows : Nat) (f : ClientFrame) : Prop :=
  f.opcode = 0x1 ∧ sendSize cols rows = some f.payload

/-- Wherever it is read in a session, the message types nothing and sets no other size. -/
def SizeConsumed (cols rows : Nat) : Prop :=
  ∀ (f : ClientFrame) (rest : List UInt8) (t : Turn) (s : Session), SizeFrame cols rows f →
    Arrives s.input (f.bytes ++ rest) →
    (turn t s).1.typed = s.typed ∧
      ((turn t s).1.sizes = s.sizes ∨ (turn t s).1.sizes = s.sizes ++ [(cols, rows)])

theorem resizeMessage_ne_nil (cols rows : Nat) : resizeMessage cols rows ≠ [] :=
  List.cons_ne_nil _ _

theorem message_size {t : Turn} {cols rows : Nat} (hcols : 0 < cols) (hrows : 0 < rows)
    (hsmall : cols < 500 ∧ rows < 500) (s : Session) :
    message t 0x1 (resizeMessage cols rows) s =
      ({ s with sizes := s.sizes ++ [(cols, rows)], idle := t.now + sessionIdleSec }, .goOn) := by
  have hsize := resizeTo_resizeMessage hcols hrows
  rw [if_pos hsmall] at hsize
  rw [message, if_neg (by decide), if_neg (by decide),
    if_pos ⟨rfl, resizeMessage_ne_nil cols rows⟩, hsize]

/-- A size from 500 on is typed like any other text. -/
theorem message_large {t : Turn} (ht : t.PtyAccepts) {cols rows : Nat} (hcols : 0 < cols)
    (hrows : 0 < rows) (hlarge : ¬ (cols < 500 ∧ rows < 500)) (s : Session) :
    (message t 0x1 (resizeMessage cols rows) s).1.typed =
      s.typed ++ resizeMessage cols rows := by
  have hsize := resizeTo_resizeMessage hcols hrows
  rw [if_neg hlarge] at hsize
  have hall := writeAll_ok (writeAll_of_not_fails (resizeMessage cols rows) ht).1
  rw [message, if_neg (by decide), if_neg (by decide),
    if_pos ⟨rfl, resizeMessage_ne_nil cols rows⟩, hsize]
  simp only [resizeMessage_ne_nil, true_or, ne_eq, not_false_eq_true, and_self, if_true, hall]
  exact (restOfTurn_keeps t _).2.1

/-- The sizes that are consumed: those below 500, and those whose message is longer than the buffer,
which end the session. -/
theorem sizeConsumed_iff {cols rows : Nat} (hcols : 0 < cols) (hrows : 0 < rows) :
    SizeConsumed cols rows ↔
      (cols < 500 ∧ rows < 500) ∨ ioSize < (resizeMessage cols rows).length := by
  have hsend : sendSize cols rows = some (resizeMessage cols rows) := if_pos ⟨hcols, hrows⟩
  constructor
  · intro hconsumed
    by_contra hnot
    rw [not_or, Nat.not_lt] at hnot
    obtain ⟨hlarge, hfits⟩ := hnot
    -- the message arrives at once, and the terminal takes everything
    let f : ClientFrame := ⟨true, 0x1, [0, 0, 0, 0], resizeMessage cols rows, by decide, rfl,
      Nat.lt_of_le_of_lt hfits (by decide)⟩
    have harrives := arrives_whole (s := f.bytes ++ []) (List.cons_ne_nil _ _)
    have hreads := turn_readable (t := clientTurn) rfl
      (s := .begin [.data (f.bytes ++ [])] 0) (clientTurn_untimed _).1 (clientTurn_untimed _).2
    obtain ⟨rs, hread, -⟩ := wsReadMsg_arrives harrives hfits
    have htyped := (hconsumed f [] clientTurn (.begin [.data (f.bytes ++ [])] 0) ⟨rfl, hsend⟩
      harrives).1
    rw [hreads, show (Session.begin [.data (f.bytes ++ [])] 0).input = [.data (f.bytes ++ [])] from
      rfl, hread] at htyped
    have hall := message_large (t := clientTurn) (List.forall_mem_nil _) hcols hrows hlarge
      { Session.begin [.data (f.bytes ++ [])] 0 with input := rs }
    exact resizeMessage_ne_nil cols rows (hall.symm.trans htyped)
  · intro hsmall f rest t s ⟨hop, hpayload⟩ harrives
    obtain hmessage : resizeMessage cols rows = f.payload := Option.some.inj (hsend.symm.trans hpayload)
    -- only a turn that reads the message can type it
    cases hready : t.readable with
    | false =>
      obtain ⟨-, htyped, hsizes⟩ := turn_unreadable hready s
      exact ⟨htyped, .inl hsizes⟩
    | true =>
      by_cases htimely : t.now < s.maxd ∧ t.now < s.idle
      · rw [turn_readable hready htimely.1 htimely.2]
        by_cases hlong : ioSize < f.payload.length
        · obtain ⟨rs, hread⟩ := wsReadMsg_too_long harrives hlong
          rw [hread]
          exact ⟨rfl, .inl rfl⟩
        · obtain ⟨rs, hread, -⟩ := wsReadMsg_arrives harrives (Nat.le_of_not_lt hlong)
          have hsizes := hsmall.resolve_right (by rw [hmessage]; exact hlong)
          have hmsg := message_size (t := t) hcols hrows hsizes { s with input := rs }
          rw [hread, hop, ← hmessage]
          show (message t 0x1 (resizeMessage cols rows) { s with input := rs }).1.typed = s.typed ∧
            ((message t 0x1 (resizeMessage cols rows) { s with input := rs }).1.sizes = s.sizes ∨
              (message t 0x1 (resizeMessage cols rows) { s with input := rs }).1.sizes =
                s.sizes ++ [(cols, rows)])
          rw [hmsg]
          exact ⟨rfl, .inr rfl⟩
      · rw [turn_late htimely]
        exact ⟨rfl, .inl rfl⟩

/-- The usual size, and one that is too wide. -/
theorem sizeConsumed_iff_usual : SizeConsumed 80 24 ∧ ¬ SizeConsumed 500 24 := by
  constructor
  · exact (sizeConsumed_iff (by decide) (by decide)).mpr (.inl (by decide))
  · intro h
    have hsmall := (sizeConsumed_iff (by decide) (by decide)).mp h
    exact absurd hsmall (by decide +kernel)

/-- A window of 500 columns and 24 rows. -/
theorem not_sizeConsumed_wide :
    ¬ ∀ cols rows : Nat, 0 < cols → 0 < rows → SizeConsumed cols rows := by
  intro h
  let f : ClientFrame := ⟨true, 0x1, [1, 2, 3, 4], resizeMessage 500 24, by decide, rfl,
    by decide +kernel⟩
  have harrives := arrives_whole (s := f.bytes ++ []) (List.cons_ne_nil _ _)
  have hsame := (h 500 24 (by decide) (by decide) f [] clientTurn
    (.begin [.data (f.bytes ++ [])] 0) ⟨rfl, rfl⟩ harrives).1
  have htyped : (turn clientTurn (.begin [.data (f.bytes ++ [])] 0)).1.typed =
      bytes "\x7b\"type\":\"resize\",\"cols\":500,\"rows\":24\x7d" := by decide +kernel
  rw [htyped] at hsame
  exact absurd hsame (by decide)

end Wssh
