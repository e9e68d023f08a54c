/-!
# Runs of a step relation

A labelled step relation and its runs, with the events of a run in order.  What every step keeps,
and what every step adds to an account of the events, holds of a run by one induction each.
-/

variable {σ ε : Type}

/-- A run: its events, from the first state to the last. -/
inductive Run (step : σ → ε → σ → Prop) : σ → List ε → σ → Prop
  | nil (s : σ) : Run step s [] s
  | cons {s t u : σ} {e : ε} {es : List ε} (h : step s e t) (hrest : Run step t es u) :
      Run step s (e :: es) u

namespace Run

variable {step : σ → ε → σ → Prop}

theorem single {s t : σ} {e : ε} (h : step s e t) : Run step s [e] t := .cons h (.nil t)

theorem append {s t u : σ} {es es' : List ε} (h : Run step s es t) (h' : Run step t es' u) :
    Run step s (es ++ es') u := by
  induction h with
  | nil s => exact h'
  | cons hstep _ ih => exact .cons hstep (ih h')

/-- What every step keeps holds at the end of a run. -/
theorem invariant {I : σ → Prop} (hstep : ∀ s e t, I s → step s e t → I t) {s t : σ} {es : List ε}
    (h : Run step s es t) (hs : I s) : I t := by
  induction h with
  | nil s => exact hs
  | cons hfirst _ ih => exact ih (hstep _ _ _ hs hfirst)

open List in
/-- Where every step balances what its event brings and takes with what the states hold, a run does
so. -/
theorem balance {α : Type} {inflow outflow : ε → Option α} {held : σ → List α}
    (hstep : ∀ s e t, step s e t →
      ((inflow e).toList ++ held s).Perm ((outflow e).toList ++ held t))
    {s t : σ} {es : List ε} (h : Run step s es t) :
    (es.filterMap inflow ++ held s).Perm (es.filterMap outflow ++ held t) := by
  induction h with
  | nil s => exact .refl _
  | @cons s t u e es hfirst _ ih =>
    have hcons (f : ε → Option α) : (e :: es).filterMap f = (f e).toList ++ es.filterMap f := by
      rw [List.filterMap_cons]
      cases f e <;> rfl
    rw [hcons, hcons]
    -- what comes in first is balanced by the first step, the rest by the rest
    calc (inflow e).toList ++ es.filterMap inflow ++ held s
        ~ es.filterMap inflow ++ ((inflow e).toList ++ held s) := by
          rw [← List.append_assoc]
          exact List.perm_append_comm.append_right _
      _ ~ es.filterMap inflow ++ ((outflow e).toList ++ held t) :=
          (hstep s e t hfirst).append_left _
      _ ~ (outflow e).toList ++ (es.filterMap inflow ++ held t) := by
          rw [← List.append_assoc, ← List.append_assoc]
          exact List.perm_append_comm.append_right _
      _ ~ (outflow e).toList ++ es.filterMap outflow ++ held u := by
          rw [List.append_assoc]
          exact ih.append_left _

end Run
