import Mathlib.Algebra.Order.Ring.Int

/-!
# Brackets that belong together

A sequence of openings (`1`), closings (`-1`) and other things (`0`).  An opening and a closing
belong together if the depth behind the one is that before the other for the first time.
-/

namespace Balance

variable {w : Nat → Int} {p q q' : Nat}

/-- The depth before an element. -/
def depth (w : Nat → Int) : Nat → Int
  | 0 => 0
  | i + 1 => depth w i + w i

/-- Between the two the depth is greater than around them. -/
def Paired (w : Nat → Int) (p q : Nat) : Prop :=
  p < q ∧ depth w (q + 1) = depth w p ∧ ∀ x, p < x → x ≤ q → depth w p < depth w x

/-- What is opened is closed in one place. -/
theorem Paired.right_unique (h : Paired w p q) (h' : Paired w p q') : q = q' := by
  obtain ⟨hlt, heq, hin⟩ := h
  obtain ⟨hlt', heq', hin'⟩ := h'
  rcases Nat.lt_trichotomy q q' with hq | rfl | hq
  · have := hin' (q + 1) (by omega) (by omega)
    omega
  · rfl
  · have := hin (q' + 1) (by omega) (by omega)
    omega

/-- What is closed is opened in one place. -/
theorem Paired.left_unique {p' : Nat} (h : Paired w p q) (h' : Paired w p' q) : p = p' := by
  obtain ⟨hlt, heq, hin⟩ := h
  obtain ⟨hlt', heq', hin'⟩ := h'
  rcases Nat.lt_trichotomy p p' with hp | rfl | hp
  · have := hin p' hp (by omega)
    omega
  · rfl
  · have := hin' p hp (by omega)
    omega

section
variable (hw : ∀ i, -1 ≤ w i ∧ w i ≤ 1)
include hw

/-- An opening begins a pair. -/
theorem Paired.opens (h : Paired w p q) : w p = 1 := by
  have hstep := h.2.2 (p + 1) (by omega) h.1
  have hbound := hw p
  rw [depth] at hstep
  omega

/-- A closing ends it. -/
theorem Paired.closes (h : Paired w p q) : w q = -1 := by
  have hstep := h.2.2 q h.1 (Nat.le_refl q)
  have hdepth := h.2.1
  have hbound := hw q
  rw [depth] at hdepth
  omega

end

/-- From an opening on everything up to here has been inside. -/
def Inward (w : Nat → Int) (p q : Nat) : Prop :=
  p < q ∧ ∀ x, p < x → x ≤ q → depth w p < depth w x

theorem Inward.start (h : w p = 1) : Inward w p (p + 1) := by
  refine ⟨Nat.lt_succ_self p, fun x hp hx => ?_⟩
  obtain rfl : x = p + 1 := by omega
  rw [depth, h]
  omega

/-- One more element is inside, or it closes. -/
theorem Inward.next (hw : ∀ i, -1 ≤ w i ∧ w i ≤ 1) (h : Inward w p q) :
    (depth w (q + 1) = depth w p → Paired w p q) ∧
      (depth w (q + 1) ≠ depth w p → Inward w p (q + 1)) := by
  refine ⟨fun heq => ⟨h.1, heq, h.2⟩, fun hne => ⟨by have := h.1; omega, fun x hp hx => ?_⟩⟩
  rcases Nat.lt_or_eq_of_le hx with hx | rfl
  · exact h.2 x hp (by omega)
  · have hlast := h.2 q h.1 (Nat.le_refl q)
    have hbound := hw q
    rw [depth] at hne ⊢
    omega

/-- Down to here everything before a closing has been inside. -/
def Outward (w : Nat → Int) (p q : Nat) : Prop :=
  p ≤ q ∧ ∀ x, p ≤ x → x ≤ q → depth w (q + 1) < depth w x

theorem Outward.start (h : w q = -1) : Outward w q q := by
  refine ⟨Nat.le_refl q, fun x hq hx => ?_⟩
  obtain rfl : x = q := by omega
  rw [depth, h]
  omega

theorem Outward.next (hw : ∀ i, -1 ≤ w i ∧ w i ≤ 1) (h : Outward w (p + 1) q) :
    (depth w p = depth w (q + 1) → Paired w p q) ∧
      (depth w p ≠ depth w (q + 1) → Outward w p q) := by
  refine ⟨fun heq => ⟨by have := h.1; omega, heq.symm, fun x hp hx => ?_⟩,
    fun hne => ⟨by have := h.1; omega, fun x hp hx => ?_⟩⟩
  · rw [heq]
    exact h.2 x hp hx
  · rcases Nat.lt_or_eq_of_le hp with hp | rfl
    · exact h.2 x hp hx
    · have hlast := h.2 (p + 1) (Nat.le_refl _) h.1
      have hbound := hw p
      have hstep : depth w (p + 1) = depth w p + w p := rfl
      omega

end Balance
