import Mathlib.Data.List.GetD
import ZteWifi.Lib.Search

/-!
# Searching letter by letter

The search that reads every letter once and falls back in the word by a table of its borders.  It
finds what the naive search finds.
-/

namespace Search

variable {α β : Type} [DecidableEq α]

/-! ## 1. The routines -/

/-- `while (j > 0 && c != pat[j]) j = fail[j - 1];`, at most `n` times round. -/
def fallBack (pat : List α) (fail : List Nat) (c : α) : Nat → Nat → Nat
  | 0, j => j
  | n + 1, j =>
    if 0 < j ∧ pat[j]? ≠ some c then fallBack pat fail c n (fail.getD (j - 1) 0) else j

/-- How much of the word has been read with `c`, when it was `j` before. -/
def advance (pat : List α) (fail : List Nat) (c : α) (j : Nat) : Nat :=
  let j := fallBack pat fail c j j
  if pat[j]? = some c then j + 1 else j

def failLoop (pat : List α) : List α → List Nat → Nat → List Nat
  | [], fail, _ => fail
  | c :: cs, fail, j => failLoop pat cs (fail ++ [advance pat fail c j]) (advance pat fail c j)

/-- The table of the word. -/
def failTable (pat : List α) : List Nat := failLoop pat pat.tail [0] 0

/-- What is left of an input behind the word that is read from it through `f`; `none` when the input
ends first. -/
def scan (f : β → α) (pat : List α) (fail : List Nat) : Nat → List β → Option (List β)
  | _, [] => none
  | j, c :: s =>
    if advance pat fail (f c) j = pat.length then some s
    else scan f pat fail (advance pat fail (f c) j) s

/-! ## 2. The longest prefix read -/

/-- `j` letters of the word stand at the end of `w`, and no more. -/
structure Longest (pat w : List α) (j : Nat) : Prop where
  le : j ≤ pat.length
  suffix : pat.take j <:+ w
  max : ∀ k ≤ pat.length, pat.take k <:+ w → k ≤ j

/-- The first `n` entries are the lengths of the longest proper borders. -/
def Borders (pat : List α) (fail : List Nat) (n : Nat) : Prop :=
  ∀ i < n, Longest pat (pat.take (i + 1)).tail (fail.getD i 0)

omit [DecidableEq α] in
theorem take_succ_suffix {pat w : List α} {c : α} {k : Nat} (hk : k < pat.length) :
    pat.take (k + 1) <:+ w ++ [c] ↔ pat[k]? = some c ∧ pat.take k <:+ w := by
  rw [List.take_succ_eq_append_getElem hk, List.getElem?_eq_getElem hk, Option.some.injEq]
  constructor
  · rintro ⟨t, ht⟩
    rw [← List.append_assoc] at ht
    obtain ⟨hinit, hlast⟩ := List.append_inj' ht rfl
    exact ⟨List.singleton_inj.mp hlast, t, hinit⟩
  · rintro ⟨rfl, t, rfl⟩
    exact ⟨t, (List.append_assoc t _ _).symm⟩

omit [DecidableEq α] in
theorem tail_suffix_of_lt {u v : List α} (h : u <:+ v) (hlt : u.length < v.length) :
    u <:+ v.tail := by
  cases v with
  | nil => exact absurd hlt (Nat.not_lt_zero _)
  | cons a v =>
    refine (List.suffix_cons_iff.mp h).resolve_left fun heq => ?_
    rw [heq] at hlt
    exact Nat.lt_irrefl _ hlt

omit [DecidableEq α] in
/-- Of the prefixes that stand at the end of `w`, the shorter are borders of the longer. -/
theorem border_of_suffixes {pat w : List α} {j k : Nat} (hj : j ≤ pat.length) (hk : k < j)
    (hjw : pat.take j <:+ w) (hkw : pat.take k <:+ w) : pat.take k <:+ (pat.take j).tail := by
  have hlt : (pat.take k).length < (pat.take j).length := by
    rw [List.length_take, List.length_take]
    omega
  exact tail_suffix_of_lt (List.suffix_of_suffix_length_le hkw hjw (Nat.le_of_lt hlt)) hlt

theorem fallBack_spec {pat : List α} {fail : List Nat} {c : α} {w : List α} {n j : Nat}
    (hn : j ≤ n) (hj : j < pat.length) (hfail : Borders pat fail j) (hsuf : pat.take j <:+ w)
    (hmax : ∀ k < pat.length, pat.take (k + 1) <:+ w ++ [c] → k ≤ j) :
    fallBack pat fail c n j ≤ j ∧ pat.take (fallBack pat fail c n j) <:+ w ∧
      (∀ k < pat.length, pat.take (k + 1) <:+ w ++ [c] → k ≤ fallBack pat fail c n j) ∧
      (fallBack pat fail c n j = 0 ∨ pat[fallBack pat fail c n j]? = some c) := by
  induction n generalizing j with
  | zero => exact ⟨Nat.le_refl _, hsuf, hmax, .inl (Nat.le_zero.mp hn)⟩
  | succ n ih =>
    rw [fallBack]
    split
    · next hloop =>
      obtain ⟨hpos, hne⟩ := hloop
      have hentry := hfail (j - 1) (by omega)
      rw [Nat.sub_add_cancel hpos] at hentry
      generalize fail.getD (j - 1) 0 = j' at hentry ⊢
      have hlt : j' < j := by
        have hle := hentry.suffix.length_le
        rw [List.length_tail, List.length_take, List.length_take] at hle
        have := hentry.le
        omega
      obtain ⟨hle, hrest⟩ := ih (j := j') (by omega) (by omega)
        (fun i hi => hfail i (by omega))
        (hentry.suffix.trans ((List.tail_suffix _).trans hsuf)) fun k hk hkw => by
          obtain ⟨hkc, hkw'⟩ := (take_succ_suffix hk).mp hkw
          have hkj : k < j := by
            refine Nat.lt_of_le_of_ne (hmax k hk hkw) ?_
            rintro rfl
            exact hne hkc
          exact hentry.max k (Nat.le_of_lt hk)
            (border_of_suffixes (Nat.le_of_lt hj) hkj hsuf hkw')
      exact ⟨by omega, hrest⟩
    · next hstop =>
      refine ⟨Nat.le_refl _, hsuf, hmax, ?_⟩
      by_cases hpos : 0 < j
      · exact .inr (not_not.mp fun hne => hstop ⟨hpos, hne⟩)
      · exact .inl (by omega)

theorem Longest.advance {pat : List α} {fail : List Nat} {w : List α} {j : Nat}
    (h : Longest pat w j) (hj : j < pat.length) (hfail : Borders pat fail j) (c : α) :
    Longest pat (w ++ [c]) (advance pat fail c j) := by
  obtain ⟨hle, hsuf, hmax, hstop⟩ := fallBack_spec (c := c) (Nat.le_refl j) hj hfail h.suffix
    fun k hk hkw => h.max k (Nat.le_of_lt hk) ((take_succ_suffix hk).mp hkw).2
  rw [Search.advance]
  generalize fallBack pat fail c j j = j' at hle hsuf hmax hstop
  split
  · next hc =>
    refine ⟨by omega, (take_succ_suffix (by omega)).mpr ⟨hc, hsuf⟩, fun k hk hkw => ?_⟩
    cases k with
    | zero => exact Nat.zero_le _
    | succ k => exact Nat.succ_le_succ (hmax k hk hkw)
  · next hc =>
    obtain rfl := hstop.resolve_right hc
    refine ⟨Nat.zero_le _, List.nil_suffix, fun k hk hkw => ?_⟩
    cases k with
    | zero => exact Nat.le_refl _
    | succ k =>
      obtain rfl := Nat.le_zero.mp (hmax k hk hkw)
      exact absurd ((take_succ_suffix hk).mp hkw).1 hc

/-! ## 3. The table -/

theorem failLoop_borders {pat : List α} (cs : List α) {fail : List Nat} {i j : Nat}
    (hcs : pat.drop i = cs) (hi : 0 < i) (hlen : fail.length = i) (hfail : Borders pat fail i)
    (hj : Longest pat (pat.take i).tail j) : Borders pat (failLoop pat cs fail j) pat.length := by
  induction cs generalizing fail i j with
  | nil => exact fun k hk => hfail k (Nat.lt_of_lt_of_le hk (List.drop_eq_nil_iff.mp hcs))
  | cons c cs ih =>
    have hilt : i < pat.length := by
      refine Nat.lt_of_not_le fun hle => ?_
      rw [List.drop_of_length_le hle] at hcs
      cases hcs
    obtain ⟨hc, hcs'⟩ := List.cons.inj ((List.drop_eq_getElem_cons hilt).symm.trans hcs)
    have hji : j < i := by
      have hle := hj.suffix.length_le
      rw [List.length_tail, List.length_take, List.length_take] at hle
      have := hj.le
      omega
    have htail : (pat.take (i + 1)).tail = (pat.take i).tail ++ [c] := by
      rw [List.take_succ_eq_append_getElem hilt, hc, List.tail_append_of_ne_nil]
      exact fun hnil => by
        rw [List.take_eq_nil_iff] at hnil
        rcases hnil with rfl | rfl <;> simp at hi hilt
    have hnext := hj.advance (by omega) (fun k hk => hfail k (by omega)) c
    rw [← htail] at hnext
    refine ih hcs' (Nat.succ_pos i) (by rw [List.length_append, hlen]; rfl) (fun k hk => ?_) hnext
    by_cases hki : k < i
    · rw [List.getD_append _ _ _ _ (hlen ▸ hki)]
      exact hfail k hki
    · obtain rfl : k = i := by omega
      rw [List.getD_append_right _ _ _ _ (by omega), hlen, Nat.sub_self]
      exact hnext

theorem failLoop_length (pat cs : List α) (fail : List Nat) (j : Nat) :
    (failLoop pat cs fail j).length = fail.length + cs.length := by
  induction cs generalizing fail j with
  | nil => rfl
  | cons c cs ih =>
    rw [failLoop, ih, List.length_append, List.length_singleton, List.length_cons]
    omega

theorem failTable_length {pat : List α} (hpat : pat ≠ []) :
    (failTable pat).length = pat.length := by
  rw [failTable, failLoop_length, List.length_singleton, List.length_tail]
  have := List.length_pos_iff.mpr hpat
  omega

omit [DecidableEq α] in
/-- What stands at the end of a word and is not all of it. -/
theorem suffix_tail_iff {u w : List α} (hw : w ≠ []) :
    u <:+ w.tail ↔ u.length < w.length ∧ u = w.drop (w.length - u.length) := by
  have hpos := List.length_pos_iff.mpr hw
  constructor
  · intro h
    have hle := h.length_le
    have hdrop := List.suffix_iff_eq_drop.mp (h.trans (List.tail_suffix w))
    rw [List.length_tail] at hle
    exact ⟨by omega, hdrop⟩
  · rintro ⟨hlt, hdrop⟩
    exact tail_suffix_of_lt (hdrop ▸ List.drop_suffix _ w) hlt

/-- The table holds the longest proper borders of all prefixes. -/
theorem failTable_borders (pat : List α) : Borders pat (failTable pat) pat.length := by
  cases pat with
  | nil => exact fun i hi => absurd hi (Nat.not_lt_zero i)
  | cons c cs =>
    have hone : Longest (c :: cs) ((c :: cs).take 1).tail 0 := by
      refine ⟨Nat.zero_le _, List.nil_suffix, fun k _ hsuf => ?_⟩
      rw [List.take_eq_nil_iff.mp (List.suffix_nil.mp hsuf) |>.resolve_right (List.cons_ne_nil _ _)]
    refine failLoop_borders cs rfl Nat.one_pos rfl (fun i hi => ?_) hone
    obtain rfl : i = 0 := by omega
    exact hone

/-! ## 4. The leftmost occurrence -/

/-- Behind `w`, the word ends first at the position `e` of `s`. -/
structure EndsFirst (pat w s : List α) (e : Nat) : Prop where
  le : e ≤ s.length
  suffix : pat <:+ w ++ s.take e
  min : ∀ e' < e, ¬ pat <:+ w ++ s.take e'

omit [DecidableEq α] in
theorem EndsFirst.cons {pat w s : List α} {c : α} {e : Nat} (h : EndsFirst pat (w ++ [c]) s e)
    (hnot : ¬ pat <:+ w) : EndsFirst pat w (c :: s) (e + 1) := by
  have hshift (e : Nat) : w ++ (c :: s).take (e + 1) = w ++ [c] ++ s.take e := by
    rw [List.take_succ_cons, List.append_assoc, List.singleton_append]
  refine ⟨Nat.succ_le_succ h.le, by rw [hshift]; exact h.suffix, fun e' he' => ?_⟩
  cases e' with
  | zero => rwa [List.take_zero, List.append_nil]
  | succ e' =>
    rw [hshift]
    exact h.min e' (by omega)

omit [DecidableEq α] in
theorem EndsFirst.unique {pat w s : List α} {e e' : Nat} (h : EndsFirst pat w s e)
    (h' : EndsFirst pat w s e') : e = e' :=
  Nat.le_antisymm (Nat.le_of_not_lt fun hlt => h.min _ hlt h'.suffix)
    (Nat.le_of_not_lt fun hlt => h'.min _ hlt h.suffix)

theorem scan_spec {f : β → α} {pat : List α} {fail : List Nat}
    (hfail : Borders pat fail pat.length) (s : List β) {w : List α} {j : Nat}
    (hj : Longest pat w j) (hlt : j < pat.length) :
    match scan f pat fail j s with
    | some r => ∃ e, r = s.drop e ∧ EndsFirst pat w (s.map f) e
    | none => ∀ e, ¬ pat <:+ w ++ (s.map f).take e := by
  have hnot {w : List α} {j : Nat} (hj : Longest pat w j) (hlt : j < pat.length) : ¬ pat <:+ w := by
    intro hsuf
    have := hj.max pat.length (Nat.le_refl _) (by rwa [List.take_length])
    omega
  induction s generalizing w j with
  | nil =>
    intro e
    rw [List.map_nil, List.take_nil, List.append_nil]
    exact hnot hj hlt
  | cons c s ih =>
    have hnext := hj.advance hlt (fun i hi => hfail i (by omega)) (f c)
    rw [scan]
    by_cases hfull : Search.advance pat fail (f c) j = pat.length
    · rw [if_pos hfull]
      have hsuf := hnext.suffix
      rw [hfull, List.take_length] at hsuf
      refine ⟨1, rfl, EndsFirst.cons ⟨Nat.zero_le _, ?_, nofun⟩ (hnot hj hlt)⟩
      rwa [List.take_zero, List.append_nil]
    · rw [if_neg hfull]
      have hrest := ih hnext (Nat.lt_of_le_of_ne hnext.le hfull)
      cases hscan : scan f pat fail (Search.advance pat fail (f c) j) s with
      | none =>
        rw [hscan] at hrest
        intro e
        cases e with
        | zero =>
          rw [List.take_zero, List.append_nil]
          exact hnot hj hlt
        | succ e =>
          have := hrest e
          rwa [List.append_assoc, List.singleton_append] at this
      | some r =>
        rw [hscan] at hrest
        obtain ⟨e, hr, hfirst⟩ := hrest
        exact ⟨e + 1, hr, hfirst.cons (hnot hj hlt)⟩

/-- What is left behind the leftmost occurrence. -/
def behind (f : β → α) (pat : List α) (s : List β) : Option (List β) :=
  (find pat (s.map f)).map fun i => s.drop (i + pat.length)

theorem behind_eq_some {f : β → α} {pat : List α} {s : List β} {e : Nat}
    (h : EndsFirst pat [] (s.map f) e) : behind f pat s = some (s.drop e) := by
  rw [behind]
  cases hfind : find pat (s.map f) with
  | none => exact absurd h.suffix (find_none_end hfind e)
  | some i =>
    obtain ⟨hle, hsuf, hmin⟩ := find_some_end hfind
    rw [h.unique ⟨hle, hsuf, hmin⟩]
    rfl

theorem behind_append {f : β → α} {pat : List α} {u b : List β}
    (h : EndsFirst pat [] (u.map f ++ b.map f) (u.map f).length) :
    behind f pat (u ++ b) = some b := by
  rw [← List.map_append] at h
  rw [behind_eq_some h, List.length_map, List.drop_left]

theorem behind_eq_none {f : β → α} {pat : List α} {s : List β}
    (h : ∀ e, ¬ pat <:+ (s.map f).take e) : behind f pat s = none := by
  rw [behind]
  cases hfind : find pat (s.map f) with
  | none => rfl
  | some i => exact absurd (find_some_end hfind).2.1 (h _)

/-- The search finds what the naive search finds. -/
theorem scan_eq {f : β → α} {pat : List α} (hpat : pat ≠ []) (s : List β) :
    scan f pat (failTable pat) 0 s = behind f pat s := by
  have hstart : Longest pat [] 0 := by
    refine ⟨Nat.zero_le _, List.nil_suffix, fun k _ hsuf => ?_⟩
    rw [List.take_eq_nil_iff.mp (List.suffix_nil.mp hsuf) |>.resolve_right hpat]
  have hspec := scan_spec (f := f) (failTable_borders pat) s hstart (List.length_pos_iff.mpr hpat)
  cases hscan : scan f pat (failTable pat) 0 s with
  | none =>
    rw [hscan] at hspec
    exact (behind_eq_none hspec).symm
  | some r =>
    rw [hscan] at hspec
    obtain ⟨e, rfl, hfirst⟩ := hspec
    exact (behind_eq_some hfirst).symm

theorem scan_append {f : β → α} {pat : List α} {fail : List Nat} {j : Nat} {s r : List β}
    (b : List β) (h : scan f pat fail j s = some r) :
    scan f pat fail j (s ++ b) = some (r ++ b) := by
  induction s generalizing j with
  | nil => cases h
  | cons c s ih =>
    rw [scan] at h
    rw [List.cons_append, scan]
    split at h
    · next hfull =>
      cases h
      rw [if_pos hfull]
    · next hfull => rw [if_neg hfull, ih h]

/-! ## 5. Words that do not overlap themselves -/

omit [DecidableEq α] in
/-- The word that is put behind `u` is its first occurrence when none ends inside. -/
theorem endsFirst_append {pat u : List α} (b : List α) (hu : ¬ pat <:+: u)
    (hinside : ∀ k < pat.length, 0 < k → ¬ pat <:+ u ++ pat.take k) :
    EndsFirst pat [] (u ++ pat ++ b) (u ++ pat).length := by
  refine ⟨?_, ?_, fun e he hsuf => ?_⟩
  · rw [List.length_append, List.length_append, List.length_append]
    omega
  · rw [List.take_left, List.nil_append]
    exact List.suffix_append u pat
  · rw [List.nil_append, List.take_append_of_le_length (Nat.le_of_lt he)] at hsuf
    rw [List.length_append] at he
    by_cases hle : e ≤ u.length
    · rw [List.take_append_of_le_length hle] at hsuf
      exact hu (hsuf.isInfix.trans (List.take_prefix e u).isInfix)
    · rw [List.take_append, List.take_of_length_le (Nat.le_of_not_le hle)] at hsuf
      exact hinside (e - u.length) (by omega) (by omega) hsuf

omit [DecidableEq α] in
/-- The first letter does not come back. -/
theorem endsFirst_of_head {c : α} {r u : List α} (b : List α) (hc : c ∉ r)
    (hu : ¬ c :: r <:+: u) :
    EndsFirst (c :: r) [] (u ++ c :: r ++ b) (u ++ c :: r).length := by
  refine endsFirst_append b hu fun k hk hpos hsuf => ?_
  obtain ⟨t, ht⟩ := hsuf
  rcases List.append_eq_append_iff.mp ht with ⟨w, rfl, hw⟩ | ⟨w, rfl, hw⟩
  · -- the letters of `w` stand before the second `c`
    cases k with
    | zero => exact absurd hpos (Nat.lt_irrefl 0)
    | succ k =>
      rw [List.take_succ_cons] at hw
      cases w with
      | nil =>
        have hlen := congrArg List.length hw
        simp only [List.nil_append, List.length_cons, List.length_take] at hlen hk
        omega
      | cons d w =>
        rw [(List.cons.inj hw).2] at hc
        exact hc (List.mem_append_right w List.mem_cons_self)
  · have hlen := congrArg List.length hw
    simp only [List.length_append, List.length_take, List.length_cons] at hlen hk
    omega

omit [DecidableEq α] in
/-- The last letter does not stand before. -/
theorem endsFirst_of_last {d : α} {r u : List α} (b : List α) (hd : d ∉ r)
    (hu : ¬ r ++ [d] <:+: u) :
    EndsFirst (r ++ [d]) [] (u ++ (r ++ [d]) ++ b) (u ++ (r ++ [d])).length := by
  refine endsFirst_append b hu fun k hk hpos hsuf => ?_
  rw [List.length_append, List.length_singleton] at hk
  rw [List.take_append_of_le_length (by omega)] at hsuf
  have hlast : (u ++ r.take k).getLast? = some d := by
    obtain ⟨t, ht⟩ := hsuf
    rw [← ht, ← List.append_assoc, List.getLast?_concat]
  have hne : r.take k ≠ [] := by
    rw [ne_eq, List.take_eq_nil_iff]
    rintro (hzero | rfl)
    · omega
    · rw [List.length_nil] at hk
      omega
  rw [List.getLast?_append_of_ne_nil _ hne] at hlast
  exact hd (List.mem_of_mem_take (List.mem_of_getLast? hlast))

end Search
