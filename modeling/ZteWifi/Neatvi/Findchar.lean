import ZteWifi.Neatvi.Mot

/-!
# Finding a character in the line

The motions `f`, `F`, `t` and `T` of the editor.  `lbuf_findchar` walks from the cursor to the one
end of its line or the other and counts how often it comes to the character.
-/

open Ascii Pieces

namespace Neatvi

/-! ## 1. The functions -/

/-- `uc_nextdir`: the position that it leaves, and whether it returns 1. -/
def ucNextdir (beg : List UInt8) (s : Nat) (dir : Int) : Nat × Bool :=
  if dir < 0 then
    if s = 0 then (s, true) else (ucPrev beg s, false)
  else
    let s := ucNext beg s
    (s, beg.getD s 0 = 0)

/-- The loop of `lbuf_findchar`: what is left to count, and the position.  `fuel` bounds its turns;
the length of the line is always enough. -/
def findcharLoop (ln cs : List UInt8) (dir : Int) : Nat → Nat → Nat → Option (Nat × Nat)
  | 0, _, _ => none
  | fuel + 1, n, s =>
    if n = 0 then some (n, s)
    else
      match ucNextdir ln s dir with
      | (s, true) => some (n, s)
      | (s, false) =>
        findcharLoop ln cs dir fuel (if ucCode (ln.drop s) = ucCode cs then n - 1 else n) s

/-- The direction of a command with its count. -/
def findcharDir (cmd : UInt8) (n : Int) : Int :=
  let dir : Int := if cmd = 0x66 ∨ cmd = 0x74 then 1 else -1
  if n < 0 then -dir else dir

/-- `lbuf_findchar`: the new offset, or `some none` where it returns 1.  `none` is that a null
pointer is read. -/
def lbufFindchar (lb : List (List UInt8)) (cs : List UInt8) (cmd : UInt8) (n row off : Int) :
    Option (Option Int) :=
  match lbufGet lb row with
  | none => some none
  | some ln =>
    let dir := findcharDir cmd n
    match ucChr ln off with
    | none => none
    | some s =>
      (findcharLoop ln cs dir (ln.length + 1) n.natAbs s).map fun (n, s) =>
        -- `t` and `T` stop one character before
        let s := if n = 0 ∧ (cmd = 0x74 ∨ cmd = 0x54) then (ucNextdir ln s (-dir)).1 else s
        if n = 0 then some (ucOff ln s : Int) else none

/-! ## 2. The walk -/

section
variable {cs : List Char} {k : Nat}

theorem ucNext_textPos (h : ∀ c ∈ cs, c ≠ '\x00') (hk : k < cs.length) :
    ucNext (encode cs) (textPos cs k) = textPos cs (k + 1) :=
  (isChars_encode h).ucNext (by rwa [List.length_map])

theorem ucNext_end : ucNext (encode cs) (textPos cs cs.length) = textPos cs cs.length := by
  have hlen := ucLen_le ((encode cs).drop (textPos cs cs.length))
  rw [textPos_length, List.drop_length] at hlen
  rw [ucNext_eq, textPos_length, List.drop_length, Nat.le_zero.mp hlen, Nat.add_zero]

theorem getD_textPos (h : ∀ c ∈ cs, c ≠ '\x00') (hk : k ≤ cs.length) :
    (encode cs).getD (textPos cs k) 0 = 0 ↔ k = cs.length := by
  rcases Nat.lt_or_eq_of_le hk with hlt | rfl
  · have hat := (isChars_encode h).at (k := k) (by rwa [List.length_map])
    exact iff_of_false hat.2 (Nat.ne_of_lt hlt)
  · rw [textPos_length]
    exact iff_of_true (List.getD_eq_default _ _ (Nat.le_refl _)) rfl

theorem ucCode_textPos (h : ∀ c ∈ cs, c ≠ '\x00') (hk : k < cs.length) :
    ucCode ((encode cs).drop (textPos cs k)) = cs[k].toNat := by
  rw [ucCode_eq_ucDec, drop_textPos hk]
  exact (ucDec_encode (h _ (List.getElem_mem hk)) _).2

/-- The places that the calls of `uc_nextdir` come to before one returns 1. -/
inductive Visits (cs : List Char) (dir : Int) : Nat → List Nat → Prop
  | stop {s s' : Nat} (h : ucNextdir (encode cs) s dir = (s', true)) : Visits cs dir s []
  | next {s i : Nat} {path : List Nat} (hi : i < cs.length)
      (h : ucNextdir (encode cs) s dir = (textPos cs i, false))
      (hpath : Visits cs dir (textPos cs i) path) : Visits cs dir s (i :: path)

theorem ucNextdir_ahead (h : ∀ c ∈ cs, c ≠ '\x00') {dir : Int} (hdir : ¬ dir < 0)
    (hk : k < cs.length) :
    ucNextdir (encode cs) (textPos cs k) dir =
      (textPos cs (k + 1), decide (k + 1 = cs.length)) := by
  rw [ucNextdir, if_neg hdir]
  simp only [ucNext_textPos h hk, getD_textPos h hk]

theorem visits_ahead (h : ∀ c ∈ cs, c ≠ '\x00') {dir : Int} (hdir : ¬ dir < 0) (m k : Nat)
    (hm : k + m = cs.length) :
    Visits cs dir (textPos cs k) (List.range' (k + 1) (m - 1)) := by
  -- on the number of characters from the cursor to the end
  induction m generalizing k with
  | zero =>
    obtain rfl : k = cs.length := by omega
    refine .stop (?_ : ucNextdir (encode cs) _ dir = (textPos cs cs.length, true))
    rw [ucNextdir, if_neg hdir]
    simp only [ucNext_end, (getD_textPos h (Nat.le_refl _)).mpr, decide_true]
  | succ m ih =>
    have hstep := ucNextdir_ahead h hdir (k := k) (by omega)
    cases m with
    -- behind the last character is the end of the line, where 1 is returned
    | zero =>
      rw [decide_eq_true (show k + 1 = cs.length by omega)] at hstep
      exact .stop hstep
    | succ m =>
      rw [decide_eq_false (show ¬ k + 1 = cs.length by omega)] at hstep
      exact .next (by omega) hstep (ih (k + 1) (by omega))

theorem visits_back (h : ∀ c ∈ cs, c ≠ '\x00') {dir : Int} (hdir : dir < 0)
    (hk : k ≤ cs.length) : Visits cs dir (textPos cs k) (List.range k).reverse := by
  induction k with
  | zero =>
    refine .stop (?_ : ucNextdir (encode cs) 0 dir = (0, true))
    rw [ucNextdir, if_pos hdir, if_pos rfl]
  | succ k ih =>
    have hpos : textPos cs (k + 1) ≠ 0 := Nat.ne_zero_of_lt (textPos_lt h (Nat.lt_succ_self k) hk)
    have hstep : ucNextdir (encode cs) (textPos cs (k + 1)) dir = (textPos cs k, false) := by
      rw [ucNextdir, if_pos hdir, if_neg hpos, ucPrev_textPos hk]
    rw [List.range_succ, List.reverse_append]
    exact .next hk hstep (ih (Nat.le_of_succ_le hk))

/-- The loop has counted to the place, or to none, with something left to count. -/
def CountedTo (cs : List Char) (path : List Nat) (res : Option (Nat × Nat)) :
    Option Nat → Prop
  | some i => i ∈ path ∧ res = some (0, textPos cs i)
  | none => ∃ left s, left ≠ 0 ∧ res = some (left, s)

theorem CountedTo.cons {path : List Nat} {res : Option (Nat × Nat)} {found : Option Nat}
    (h : CountedTo cs path res found) (i : Nat) : CountedTo cs (i :: path) res found := by
  cases found with
  | none => exact h
  | some j => exact ⟨List.mem_cons_of_mem _ h.1, h.2⟩

/-- The loop stops where it has come to the character so often, or at the end of the line. -/
theorem findcharLoop_visits (h : ∀ c ∈ cs, c ≠ '\x00') {c : Char} (hc : c ≠ '\x00') {dir : Int}
    {s : Nat} {path : List Nat} (hpath : Visits cs dir s path) :
    ∀ {fuel n : Nat}, path.length < fuel → 0 < n →
    CountedTo cs path (findcharLoop (encode cs) (String.utf8EncodeChar c) dir fuel n s)
      (path.filter (cs[·]? = some c))[n - 1]? := by
  induction hpath with
  | @stop s s' hstop =>
    intro fuel n hfuel hn
    obtain ⟨fuel, rfl⟩ := Nat.exists_eq_add_one_of_ne_zero (Nat.ne_of_gt hfuel)
    refine ⟨n, s', Nat.ne_of_gt hn, ?_⟩
    rw [findcharLoop, if_neg (Nat.ne_of_gt hn), hstop]
  | @next s i path hi hstep hrest ih =>
    intro fuel n hfuel hn
    obtain ⟨fuel, rfl⟩ := Nat.exists_eq_add_one_of_ne_zero (Nat.ne_of_gt (Nat.zero_lt_of_lt hfuel))
    have hrun : findcharLoop (encode cs) (String.utf8EncodeChar c) dir (fuel + 1) n s =
        findcharLoop (encode cs) (String.utf8EncodeChar c) dir fuel
          (if cs[i] = c then n - 1 else n) (textPos cs i) := by
      have hcode : ucCode (String.utf8EncodeChar c) = c.toNat := by
        have hdec := (ucDec_encode hc []).2
        rwa [List.append_nil, ← ucCode_eq_ucDec] at hdec
      have hsame : cs[i].toNat = c.toNat ↔ cs[i] = c :=
        ⟨fun heq => Char.toNat_inj.mp heq, congrArg Char.toNat⟩
      rw [findcharLoop, if_neg (Nat.ne_of_gt hn), hstep]
      simp only [ucCode_textPos h hi, hcode, hsame]
    have hlt : path.length < fuel := Nat.lt_of_succ_lt_succ hfuel
    rw [hrun]
    by_cases hhit : cs[i] = c
    · have hkeep : (i :: path).filter (cs[·]? = some c) = i :: path.filter (cs[·]? = some c) :=
        List.filter_cons_of_pos (by simp [List.getElem?_eq_getElem hi, hhit])
      rw [if_pos hhit, hkeep]
      obtain ⟨n, rfl⟩ := Nat.exists_eq_add_one_of_ne_zero (Nat.ne_of_gt hn)
      rw [Nat.add_sub_cancel]
      cases n with
      -- this was the last one to count, and the next turn stops before it steps
      | zero =>
        obtain ⟨fuel, rfl⟩ := Nat.exists_eq_add_one_of_ne_zero (Nat.ne_zero_of_lt hlt)
        exact ⟨List.mem_cons_self, by rw [findcharLoop, if_pos rfl]⟩
      | succ n =>
        rw [List.getElem?_cons_succ]
        exact (ih hlt (Nat.succ_pos n)).cons i
    · have hdrop : (i :: path).filter (cs[·]? = some c) = path.filter (cs[·]? = some c) :=
        List.filter_cons_of_neg (by simp [List.getElem?_eq_getElem hi, hhit])
      rw [if_neg hhit, hdrop]
      exact (ih hlt hn).cons i

/-! ## 3. The motion -/

/-- The places between the cursor and the end of the line, or its start, the nearest one first. -/
def places (cs : List Char) (k : Nat) (dir : Int) : List Nat :=
  if dir < 0 then (List.range k).reverse else List.range' (k + 1) (cs.length - k - 1)

/-- Where the character is in the line, the nearest place to the cursor first. -/
def occurrences (cs : List Char) (c : Char) (k : Nat) (dir : Int) : List Nat :=
  (places cs k dir).filter (cs[·]? = some c)

theorem visits_line (h : ∀ c ∈ cs, c ≠ '\x00') (hk : k ≤ cs.length) (dir : Int) :
    Visits cs dir (textPos cs k) (places cs k dir) := by
  unfold places
  split
  · next hdir => exact visits_back h hdir hk
  · next hdir => exact visits_ahead h hdir _ k (Nat.add_sub_cancel' hk)

theorem places_length (hk : k ≤ cs.length) (dir : Int) : (places cs k dir).length ≤ cs.length := by
  unfold places
  split
  · rwa [List.length_reverse, List.length_range]
  · rw [List.length_range']
    omega

theorem mem_places {dir : Int} {i : Nat} (hk : k ≤ cs.length) (h : i ∈ places cs k dir) :
    i ≤ cs.length := by
  unfold places at h
  split at h
  · rw [List.mem_reverse, List.mem_range] at h
    omega
  · rw [List.mem_range'_1] at h
    omega

/-- The step back of `t` and `T`. -/
theorem ucNextdir_back (h : ∀ c ∈ cs, c ≠ '\x00') (hk : k ≤ cs.length) {dir : Int}
    (hdir : dir = 1 ∨ dir = -1) {i : Nat} (hi : i ∈ places cs k dir) :
    ∃ j : Nat, (j : Int) = i - dir ∧ j ≤ cs.length ∧
      (ucNextdir (encode cs) (textPos cs i) (-dir)).1 = textPos cs j := by
  unfold places at hi
  rcases hdir with rfl | rfl
  -- a place ahead is not the first of the line, one behind not its end
  · rw [if_neg (by decide), List.mem_range'_1] at hi
    obtain ⟨j, rfl⟩ : ∃ j, i = j + 1 := ⟨i - 1, by omega⟩
    have hpos : textPos cs (j + 1) ≠ 0 :=
      Nat.ne_zero_of_lt (textPos_lt h (Nat.lt_succ_self j) (by omega))
    refine ⟨j, by omega, by omega, ?_⟩
    rw [ucNextdir, if_pos (by decide), if_neg hpos, ucPrev_textPos (by omega)]
  · rw [if_pos (by decide), List.mem_reverse, List.mem_range] at hi
    refine ⟨i + 1, by omega, by omega, ?_⟩
    rw [ucNextdir_ahead h (by decide) (by omega)]

theorem findcharDir_cases (cmd : UInt8) (n : Int) :
    findcharDir cmd n = 1 ∨ findcharDir cmd n = -1 := by
  unfold findcharDir
  simp only
  split <;> split <;> decide

end

/-- On a line of text, the commands find the character as often as they are told to, away from the
cursor; `t` and `T` stop one character before.  They fail where the line does not have so many. -/
theorem lbufFindchar_finds {lb : List (List UInt8)} {row : Int} {cs : List Char}
    (hline : lbufGet lb row = some (encode cs)) (h : ∀ c ∈ cs, c ≠ '\x00') {c : Char}
    (hc : c ≠ '\x00') (cmd : UInt8) {n : Int} (hn : n ≠ 0) {k : Nat} (hk : k ≤ cs.length) :
    lbufFindchar lb (String.utf8EncodeChar c) cmd n row k =
      some ((occurrences cs c k (findcharDir cmd n))[n.natAbs - 1]?.map fun i : Nat =>
        if cmd = 0x74 ∨ cmd = 0x54 then (i : Int) - findcharDir cmd n else i) := by
  have hchars := isChars_encode h
  have hlen : (cs.map String.utf8EncodeChar).length = cs.length := List.length_map _
  have hoff (j : Nat) (hj : j ≤ cs.length) : ucOff (encode cs) (textPos cs j) = j :=
    hchars.ucOff (by rwa [hlen])
  have hchr : ucChr (encode cs) k = some (textPos cs k) := by
    rw [encode, hchars.ucChr, if_neg (by omega), if_pos (by rw [hlen]; omega), Int.toNat_natCast]
    rfl
  have hfuel : cs.length ≤ (encode cs).length := hlen ▸ hchars.length_le
  have hplaces := places_length hk (findcharDir cmd n)
  have hcount : CountedTo cs _ (findcharLoop (encode cs) (String.utf8EncodeChar c)
      (findcharDir cmd n) ((encode cs).length + 1) n.natAbs (textPos cs k)) _ :=
    findcharLoop_visits h hc (visits_line h hk (findcharDir cmd n)) (by omega) (by omega)
  unfold lbufFindchar
  simp only [hline, hchr]
  unfold occurrences
  revert hcount
  cases ((places cs k (findcharDir cmd n)).filter (cs[·]? = some c))[n.natAbs - 1]? with
  -- the end of the line is reached with something left to count
  | none =>
    rintro ⟨left, s, hleft, hres⟩
    simp only [hres, Option.map_some, Option.map_none, if_neg hleft]
  | some i =>
    rintro ⟨hi, hres⟩
    simp only [hres, Option.map_some, if_true, true_and]
    by_cases hcmd : cmd = 0x74 ∨ cmd = 0x54
    · obtain ⟨j, hj, hle, hback⟩ := ucNextdir_back h hk (findcharDir_cases cmd n) hi
      rw [if_pos hcmd, if_pos hcmd, hback, hoff j hle, hj]
    · rw [if_neg hcmd, if_neg hcmd, hoff i (mem_places hk hi)]

/-- Up to before the second `é`, and back to the second one. -/
theorem lbufFindchar_finds_accent :
    let cs := "aé水é😀é\n".toList
    (∀ c ∈ cs, c ≠ '\x00') ∧
      lbufFindchar [encode cs] (String.utf8EncodeChar 'é') 0x74 2 0 (0 : Nat) = some (some 2) ∧
      lbufFindchar [encode cs] (String.utf8EncodeChar 'é') 0x46 2 0 (5 : Nat) = some (some 1) := by
  intro cs
  have h : ∀ c ∈ cs, c ≠ '\x00' := by simp [cs]
  have hline : lbufGet [encode cs] 0 = some (encode cs) := rfl
  have hlen : cs.length = 7 := by decide
  refine ⟨h, ?_, ?_⟩
  · refine (lbufFindchar_finds hline h (by decide) 0x74 (by decide) (by omega)).trans ?_
    decide
  · refine (lbufFindchar_finds hline h (by decide) 0x46 (by decide) (by omega)).trans ?_
    decide

end Neatvi
