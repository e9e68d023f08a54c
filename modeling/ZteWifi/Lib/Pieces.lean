import Mathlib.Algebra.BigOperators.Group.List.Basic
import Mathlib.Algebra.GroupWithZero.Nat

/-!
# Parts of a sequence

A sequence is cut into parts.  Elements are counted from the start of the sequence or, with the
number of their part, from the start of the part.
-/

namespace Pieces

variable {α : Type*} {ps : List (List α)} {i j r o : Nat}

/-- Where a part starts. -/
def start (ps : List (List α)) (k : Nat) : Nat := ((ps.map List.length).take k).sum

theorem start_length (ps : List (List α)) : start ps ps.length = ps.flatten.length := by
  rw [start, List.take_of_length_le (Nat.le_of_eq (List.length_map _)), List.length_flatten]

theorem start_succ (hr : r < ps.length) : start ps (r + 1) = start ps r + ps[r].length := by
  rw [start, start, List.sum_take_succ _ _ (by rwa [List.length_map]), List.getElem_map]

theorem start_add (i j : Nat) : start ps (i + j) = start ps i + start (ps.drop i) j := by
  rw [start, List.take_add, List.sum_append, ← List.map_drop]
  rfl

theorem start_mono (h : i ≤ j) : start ps i ≤ start ps j := by
  rw [← Nat.add_sub_cancel' h, start_add]
  exact Nat.le_add_right _ _

theorem start_le (ps : List (List α)) (r : Nat) : start ps r ≤ ps.flatten.length := by
  rw [List.length_flatten, ← List.sum_take_add_sum_drop (ps.map List.length) r]
  exact Nat.le_add_right _ _

theorem drop_start (ps : List (List α)) (r : Nat) :
    ps.flatten.drop (start ps r) = (ps.drop r).flatten := List.drop_sum_flatten ps r

/-- The part has such an element. -/
def IsPlace (ps : List (List α)) (r o : Nat) : Prop := ∃ h : r < ps.length, o < ps[r].length

instance (ps : List (List α)) (r o : Nat) : Decidable (IsPlace ps r o) :=
  if h : r < ps.length then decidable_of_iff (o < ps[r].length) ⟨fun ho => ⟨h, ho⟩, fun ⟨_, ho⟩ => ho⟩
  else isFalse fun ⟨hr, _⟩ => h hr

/-- What is at a place. -/
theorem getElem?_start (hr : r < ps.length) (ho : o < ps[r].length) :
    ps.flatten[start ps r + o]? = some ps[r][o] := by
  rw [← List.getElem?_drop, drop_start, ← List.cons_getElem_drop_succ (h := hr), List.flatten_cons,
    List.getElem?_append_left ho, List.getElem?_eq_getElem ho]

theorem IsPlace.lt (h : IsPlace ps r o) : start ps r + o < ps.flatten.length := by
  obtain ⟨hr, ho⟩ := h
  exact (List.getElem?_eq_some_iff.mp (getElem?_start hr ho)).1

theorem IsPlace.lt_start (h : IsPlace ps r o) (hj : r < j) : start ps r + o < start ps j := by
  obtain ⟨hr, ho⟩ := h
  have hsucc := start_succ hr
  have hmono : start ps (r + 1) ≤ start ps j := start_mono hj
  omega

/-- Places that are counted alike are the same. -/
theorem IsPlace.inj {r' o' : Nat} (h : IsPlace ps r o) (h' : IsPlace ps r' o')
    (heq : start ps r + o = start ps r' + o') : r = r' ∧ o = o' := by
  rcases Nat.lt_trichotomy r r' with hlt | rfl | hlt
  · have := h.lt_start hlt
    omega
  · exact ⟨rfl, by omega⟩
  · have := h'.lt_start hlt
    omega

end Pieces
