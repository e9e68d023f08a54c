import Mathlib.Logic.Equiv.PartialEquiv

/-!
# Replacing a range of a list

`splice` puts new elements in the place of a range.  Where the old elements of the range are known
the replacement can be taken back, so that a patch is a partial equivalence of lists.
-/

variable {α : Type}

/-! ## 1. Ranges and their replacement -/

/-- The list with `ins` in the place of its `n` elements from `pos` on. -/
def splice (pos n : Nat) (ins xs : List α) : List α := xs.take pos ++ ins ++ xs.drop (pos + n)

/-- The elements of the list from `pos` on begin with `part`. -/
def HoldsAt (pos : Nat) (part xs : List α) : Prop := ∃ a b, xs = a ++ part ++ b ∧ a.length = pos

theorem splice_append {a old b : List α} (ins : List α) :
    splice a.length old.length ins (a ++ old ++ b) = a ++ ins ++ b := by
  have hdrop : (a ++ old ++ b).drop (a.length + old.length) = b := by
    rw [← List.length_append, List.drop_left]
  rw [splice, hdrop, List.append_assoc a old b, List.take_left]

theorem holdsAt_range {pos n : Nat} {xs : List α} (h : pos + n ≤ xs.length) :
    HoldsAt pos ((xs.drop pos).take n) xs := by
  refine ⟨xs.take pos, xs.drop (pos + n), ?_, ?_⟩
  · rw [List.append_assoc, ← List.drop_drop, List.take_append_drop, List.take_append_drop]
  · rw [List.length_take]
    omega

theorem HoldsAt.replace {pos : Nat} {old xs : List α} (h : HoldsAt pos old xs) (ins : List α) :
    HoldsAt pos ins (splice pos old.length ins xs) := by
  obtain ⟨a, b, rfl, rfl⟩ := h
  exact ⟨a, b, splice_append ins, rfl⟩

/-- A replacement on top of a replacement of the same range. -/
theorem HoldsAt.splice_splice {pos : Nat} {old xs : List α} (h : HoldsAt pos old xs)
    (mid ins : List α) :
    splice pos mid.length ins (splice pos old.length mid xs) =
      splice pos old.length ins xs := by
  obtain ⟨a, b, rfl, rfl⟩ := h
  rw [splice_append, splice_append, splice_append]

theorem HoldsAt.splice_self {pos : Nat} {old xs : List α} (h : HoldsAt pos old xs) :
    splice pos old.length old xs = xs := by
  obtain ⟨a, b, rfl, rfl⟩ := h
  rw [splice_append]

theorem HoldsAt.range {pos : Nat} {part xs : List α} (h : HoldsAt pos part xs) :
    (xs.drop pos).take part.length = part := by
  obtain ⟨a, b, rfl, rfl⟩ := h
  rw [List.append_assoc, List.drop_left, List.take_left]

theorem HoldsAt.le_length {pos : Nat} {part xs : List α} (h : HoldsAt pos part xs) :
    pos + part.length ≤ xs.length := by
  obtain ⟨a, b, rfl, rfl⟩ := h
  rw [List.length_append, List.length_append]
  omega

theorem HoldsAt.left {pos : Nat} {part part' xs : List α} (h : HoldsAt pos (part ++ part') xs) :
    HoldsAt pos part xs := by
  obtain ⟨a, b, rfl, rfl⟩ := h
  exact ⟨a, part' ++ b, by simp only [List.append_assoc], rfl⟩

theorem HoldsAt.right {pos : Nat} {part part' xs : List α} (h : HoldsAt pos (part ++ part') xs) :
    HoldsAt (pos + part.length) part' xs := by
  obtain ⟨a, b, rfl, rfl⟩ := h
  exact ⟨a ++ part, b, by simp only [List.append_assoc], List.length_append⟩

theorem HoldsAt.tail {pos : Nat} {x : α} {part xs : List α} (h : HoldsAt pos (x :: part) xs) :
    HoldsAt (pos + 1) part xs := HoldsAt.right (show HoldsAt pos ([x] ++ part) xs from h)

theorem HoldsAt.getElem? {pos : Nat} {x : α} {part xs : List α} (h : HoldsAt pos (x :: part) xs) :
    xs[pos]? = some x := by
  obtain ⟨a, b, rfl, rfl⟩ := h
  rw [List.append_assoc, List.getElem?_append_right (Nat.le_refl _), Nat.sub_self]
  rfl

theorem splice_length {pos n : Nat} {xs : List α} (h : pos + n ≤ xs.length) (ins : List α) :
    (splice pos n ins xs).length + n = xs.length + ins.length := by
  rw [splice, List.length_append, List.length_append, List.length_take, List.length_drop]
  omega

/-- A replaced range is put back. -/
theorem splice_restore {pos n : Nat} {xs : List α} (h : pos + n ≤ xs.length) (ins : List α) :
    splice pos ins.length ((xs.drop pos).take n) (splice pos n ins xs) = xs := by
  have hholds := holdsAt_range h
  have hlen : ((xs.drop pos).take n).length = n := by
    rw [List.length_take, List.length_drop]
    omega
  have hback := hholds.splice_splice ins ((xs.drop pos).take n)
  rw [hholds.splice_self, hlen] at hback
  exact hback

/-! ## 2. Patches -/

/-- A range at `pos` that held `del` and holds `ins` afterwards. -/
structure Patch (α : Type) where
  pos : Nat
  del : List α
  ins : List α

namespace Patch

/-- A patch as a partial equivalence: from the lists it can be applied to, to those it can be taken
back from. -/
def equiv (p : Patch α) : PartialEquiv (List α) (List α) where
  toFun := splice p.pos p.del.length p.ins
  invFun := splice p.pos p.ins.length p.del
  source := {xs | HoldsAt p.pos p.del xs}
  target := {xs | HoldsAt p.pos p.ins xs}
  map_source' _ h := HoldsAt.replace h p.ins
  map_target' _ h := HoldsAt.replace h p.del
  left_inv' _ h := (HoldsAt.splice_splice h p.ins p.del).trans (HoldsAt.splice_self h)
  right_inv' _ h := (HoldsAt.splice_splice h p.del p.ins).trans (HoldsAt.splice_self h)

@[simp] theorem mem_source {p : Patch α} {xs : List α} :
    xs ∈ p.equiv.source ↔ HoldsAt p.pos p.del xs := Iff.rfl

@[simp] theorem mem_target {p : Patch α} {xs : List α} :
    xs ∈ p.equiv.target ↔ HoldsAt p.pos p.ins xs := Iff.rfl

end Patch
