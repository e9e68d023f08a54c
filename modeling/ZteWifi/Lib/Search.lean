import Mathlib.Data.List.Infix

/-!
# Where a word stands in a list

The naive search for the leftmost occurrence of a word, and what an incremental search needs: when
nothing was found up to a position, the search may start behind it.
-/

namespace Search

variable {α : Type}

/-! ## 1. The search -/

section
variable [DecidableEq α]

/-- The first position of `pat`. -/
def find (pat : List α) : List α → Option Nat
  | [] => if pat = [] then some 0 else none
  | c :: s => if pat <+: c :: s then some 0 else (find pat s).map (· + 1)

theorem find_of_prefix {pat s : List α} (h : pat <+: s) : find pat s = some 0 := by
  cases s with
  | nil => rw [find, if_pos (List.prefix_nil.mp h)]
  | cons c s => rw [find, if_pos h]

theorem find_eq_some {pat s : List α} {i : Nat} (h : find pat s = some i) :
    i ≤ s.length ∧ pat <+: s.drop i ∧ ∀ j < i, ¬ pat <+: s.drop j := by
  induction s generalizing i with
  | nil =>
    rw [find] at h
    split at h
    · next hpat =>
      cases h
      exact ⟨Nat.le_refl _, hpat ▸ List.prefix_refl _, nofun⟩
    · cases h
  | cons c s ih =>
    rw [find] at h
    split at h
    · next hpat =>
      cases h
      exact ⟨Nat.zero_le _, hpat, nofun⟩
    · next hpat =>
      obtain ⟨i, hi, rfl⟩ := Option.map_eq_some_iff.mp h
      obtain ⟨hle, hat, hmin⟩ := ih hi
      refine ⟨Nat.succ_le_succ hle, hat, fun j hj => ?_⟩
      cases j with
      | zero => exact hpat
      | succ j => exact hmin j (by omega)

theorem find_eq_none {pat s : List α} (h : find pat s = none) : ∀ i, ¬ pat <+: s.drop i := by
  induction s with
  | nil =>
    rw [find] at h
    split at h
    · cases h
    · next hpat =>
      intro i hi
      rw [List.drop_nil] at hi
      exact hpat (List.prefix_nil.mp hi)
  | cons c s ih =>
    rw [find] at h
    split at h
    · cases h
    · next hpat =>
      intro i
      cases i with
      | zero => exact hpat
      | succ i => exact ih (Option.map_eq_none_iff.mp h) i

/-- A search that starts behind positions at which the word does not stand. -/
theorem find_drop (pat : List α) {s : List α} {n : Nat} (hn : n ≤ s.length)
    (h : ∀ j < n, ¬ pat <+: s.drop j) : find pat s = (find pat (s.drop n)).map (n + ·) := by
  induction n generalizing s with
  | zero =>
    rw [List.drop_zero]
    cases find pat s with
    | none => rfl
    | some i => rw [Option.map_some, Nat.zero_add]
  | succ n ih =>
    cases s with
    | nil => exact absurd hn (Nat.not_succ_le_zero n)
    | cons c s =>
      have hhead : ¬ pat <+: c :: s := h 0 (Nat.succ_pos n)
      rw [find, if_neg hhead, List.drop_succ_cons,
        ih (Nat.le_of_succ_le_succ hn) fun j hj => h (j + 1) (by omega), Option.map_map]
      congr 1
      funext i
      simp only [Function.comp_apply]
      omega

end

/-! ## 2. Where an occurrence ends -/

/-- A word ends at `e` where it stands that much before. -/
theorem suffix_take_iff {pat s : List α} {e : Nat} (he : e ≤ s.length) :
    pat <:+ s.take e ↔ pat.length ≤ e ∧ pat <+: s.drop (e - pat.length) := by
  constructor
  · intro h
    have hlen := h.length_le
    rw [List.length_take, Nat.min_eq_left he] at hlen
    refine ⟨hlen, ?_⟩
    obtain ⟨pre, hpre⟩ := h
    have hprelen : pre.length = e - pat.length := by
      have hl := congrArg List.length hpre
      rw [List.length_append, List.length_take, Nat.min_eq_left he] at hl
      omega
    refine ⟨s.drop e, ?_⟩
    have hsplit : s = pre ++ (pat ++ s.drop e) := by
      rw [← List.append_assoc, hpre, List.take_append_drop]
    conv_rhs => rw [hsplit, ← hprelen]
    rw [List.drop_left]
  · rintro ⟨hlen, rest, hrest⟩
    have htake : (s.drop (e - pat.length)).take pat.length = pat := by
      rw [← hrest, List.take_left]
    have hsplit := @List.take_add _ s (e - pat.length) pat.length
    rw [htake, Nat.sub_add_cancel hlen] at hsplit
    exact ⟨_, hsplit.symm⟩

theorem take_min (s : List α) (e : Nat) : s.take (min e s.length) = s.take e := by
  rcases Nat.le_total e s.length with h | h
  · rw [Nat.min_eq_left h]
  · rw [Nat.min_eq_right h, List.take_length, List.take_of_length_le h]

theorem exists_suffix_take {pat s : List α} (h : pat <:+: s) : ∃ e ≤ s.length, pat <:+ s.take e := by
  obtain ⟨pre, post, rfl⟩ := h
  refine ⟨(pre ++ pat).length, ?_, ?_⟩
  · rw [List.append_assoc, List.length_append, List.length_append, List.length_append]
    omega
  · rw [List.take_left]
    exact List.suffix_append pre pat

section
variable [DecidableEq α]

/-- The leftmost occurrence ends first. -/
theorem find_some_end {pat s : List α} {i : Nat} (h : find pat s = some i) :
    i + pat.length ≤ s.length ∧ pat <:+ s.take (i + pat.length) ∧
      ∀ e < i + pat.length, ¬ pat <:+ s.take e := by
  obtain ⟨-, hat, hmin⟩ := find_eq_some h
  have hlen : i + pat.length ≤ s.length := by
    have hle := hat.length_le
    have hi := (find_eq_some h).1
    rw [List.length_drop] at hle
    omega
  refine ⟨hlen, ?_, fun e he hsuf => ?_⟩
  · rw [suffix_take_iff hlen, Nat.add_sub_cancel]
    exact ⟨Nat.le_add_left _ _, hat⟩
  · obtain ⟨hle, hpre⟩ := (suffix_take_iff (by omega)).mp hsuf
    exact hmin _ (by omega) hpre

theorem find_none_end {pat s : List α} (h : find pat s = none) (e : Nat) : ¬ pat <:+ s.take e := by
  rw [← take_min, suffix_take_iff (Nat.min_le_right _ _)]
  exact fun hsuf => find_eq_none h _ hsuf.2

end

end Search
