/-!
# Programs with a state, an error return and a call bound

A C routine that works on static variables and reports failure by a return code is modelled as a
function of the state.  `Prog σ α` is that function: it returns a value or gives up (the C code's
`return -1`, with the state it had reached), and a recursion that has used up its call bound
returns nothing at all.  The relational judgement `Prog.Sim` compares two such programs that run on
different states; its rules follow the program text.
-/

/-- A program on the state `σ`.  The outer `none` is a recursion stopped by its bound, the inner
`none` the error return. -/
def Prog (σ α : Type) : Type := σ → Option (Option α × σ)

namespace Prog

variable {σ τ α β γ δ : Type}

protected def pure (a : α) : Prog σ α := fun s => some (some a, s)

protected def bind (m : Prog σ α) (k : α → Prog σ β) : Prog σ β := fun s =>
  match m s with
  | none => none
  | some (none, s') => some (none, s')
  | some (some a, s') => k a s'

instance : Monad (Prog σ) where
  pure := Prog.pure
  bind := Prog.bind

/-- The error return. -/
def fail : Prog σ α := fun s => some (none, s)

/-- A recursion that has used up its bound. -/
def diverge : Prog σ α := fun _ => none

def get : Prog σ σ := fun s => some (some s, s)

def modify (f : σ → σ) : Prog σ Unit := fun s => some (some (), f s)

/-- Update the state and return a value read from it. -/
def modifyGet (f : σ → α × σ) : Prog σ α := fun s => some (some (f s).1, (f s).2)

/-! ## What the operations do to a state -/

@[simp] theorem pure_apply (a : α) (s : σ) : (pure a : Prog σ α) s = some (some a, s) := rfl

theorem bind_apply (m : Prog σ α) (k : α → Prog σ β) (s : σ) :
    (m >>= k) s = match m s with
      | none => none
      | some (none, s') => some (none, s')
      | some (some a, s') => k a s' := rfl

@[simp] theorem fail_apply (s : σ) : (fail : Prog σ α) s = some (none, s) := rfl

@[simp] theorem diverge_apply (s : σ) : (diverge : Prog σ α) s = none := rfl

@[simp] theorem get_apply (s : σ) : (get : Prog σ σ) s = some (some s, s) := rfl

@[simp] theorem modify_apply (f : σ → σ) (s : σ) : modify f s = some (some (), f s) := rfl

@[simp] theorem modifyGet_apply (f : σ → α × σ) (s : σ) :
    modifyGet f s = some (some (f s).1, (f s).2) := rfl

@[simp] theorem pure_bind_apply (a : α) (k : α → Prog σ β) (s : σ) :
    ((pure a : Prog σ α) >>= k) s = k a s := rfl

@[simp] theorem fail_bind_apply (k : α → Prog σ β) (s : σ) :
    ((fail : Prog σ α) >>= k) s = some (none, s) := rfl

@[simp] theorem get_bind_apply (k : σ → Prog σ β) (s : σ) :
    ((get : Prog σ σ) >>= k) s = k s s := rfl

@[simp] theorem modify_bind_apply (f : σ → σ) (k : Unit → Prog σ β) (s : σ) :
    (modify f >>= k) s = k () (f s) := rfl

@[simp] theorem modifyGet_bind_apply (f : σ → α × σ) (k : α → Prog σ β) (s : σ) :
    (modifyGet f >>= k) s = k (f s).1 (f s).2 := rfl

theorem bind_assoc (m : Prog σ α) (k : α → Prog σ β) (l : β → Prog σ γ) :
    (m >>= k) >>= l = m >>= fun a => k a >>= l := by
  funext s
  simp only [bind_apply]
  rcases m s with _ | ⟨_ | a, s'⟩ <;> rfl

/-- Running on through a step that is known to return. -/
theorem bind_of_ok {m : Prog σ α} {k : α → Prog σ β} {s s' : σ} {a : α}
    (h : m s = some (some a, s')) : (m >>= k) s = k a s' := by
  rw [bind_apply, h]

theorem bind_of_fail {m : Prog σ α} {k : α → Prog σ β} {s s' : σ}
    (h : m s = some (none, s')) : (m >>= k) s = some (none, s') := by
  rw [bind_apply, h]

/-- A sequence that returned did so through its first part. -/
theorem bind_eq_ok {m : Prog σ α} {k : α → Prog σ β} {s s'' : σ} {b : β}
    (h : (m >>= k) s = some (some b, s'')) :
    ∃ a s', m s = some (some a, s') ∧ k a s' = some (some b, s'') := by
  rw [bind_apply] at h
  split at h
  · cases h
  · cases h
  · next a s' hm => exact ⟨a, s', hm, h⟩

/-- A sequence that ended did so in its first part, by the error return, or in its second. -/
theorem bind_cases {m : Prog σ α} {k : α → Prog σ β} {s s'' : σ} {r : Option β}
    (h : (m >>= k) s = some (r, s'')) :
    (r = none ∧ m s = some (none, s'')) ∨
      ∃ a s', m s = some (some a, s') ∧ k a s' = some (r, s'') := by
  rw [bind_apply] at h
  split at h
  · cases h
  · next s' hm =>
    cases h
    exact .inl ⟨rfl, hm⟩
  · next a s' hm => exact .inr ⟨a, s', hm, h⟩

/-! ## The relational judgement -/

/-- How two results compare: both stopped by the bound, both errors with states related by `E`, or
both returns with values and states related by `Q`. -/
inductive Rel (E : σ → τ → Prop) (Q : α → β → σ → τ → Prop) :
    Option (Option α × σ) → Option (Option β × τ) → Prop
  | bound : Rel E Q none none
  | error {s : σ} {t : τ} (h : E s t) : Rel E Q (some (none, s)) (some (none, t))
  | value {a : α} {b : β} {s : σ} {t : τ} (h : Q a b s t) :
      Rel E Q (some (some a, s)) (some (some b, t))

/-- From states related by `R`, the two programs have comparable results. -/
def Sim (R : σ → τ → Prop) (E : σ → τ → Prop) (Q : α → β → σ → τ → Prop)
    (m : Prog σ α) (n : Prog τ β) : Prop :=
  ∀ s t, R s t → Rel E Q (m s) (n t)

section Rules

variable {R : σ → τ → Prop} {E : σ → τ → Prop} {Q : α → β → σ → τ → Prop}
  {Q' : γ → δ → σ → τ → Prop}

theorem Rel.mono {Q₂ : α → β → σ → τ → Prop} {x : Option (Option α × σ)}
    {y : Option (Option β × τ)} (h : Rel E Q x y) (hQ : ∀ a b s t, Q a b s t → Q₂ a b s t) :
    Rel E Q₂ x y := by
  cases h with
  | bound => exact .bound
  | error he => exact .error he
  | value hq => exact .value (hQ _ _ _ _ hq)

theorem Sim.pure {a : α} {b : β} (h : ∀ s t, R s t → Q a b s t) :
    Sim R E Q (Pure.pure a) (Pure.pure b) :=
  fun s t hr => .value (h s t hr)

theorem Sim.fail (h : ∀ s t, R s t → E s t) :
    Sim R E Q (Prog.fail : Prog σ α) (Prog.fail : Prog τ β) :=
  fun s t hr => .error (h s t hr)

theorem Sim.diverge : Sim R E Q (Prog.diverge : Prog σ α) (Prog.diverge : Prog τ β) :=
  fun _ _ _ => .bound

theorem Sim.bind {m : Prog σ α} {n : Prog τ β} {k : α → Prog σ γ} {l : β → Prog τ δ}
    (h : Sim R E Q m n) (hk : ∀ a b, Sim (Q a b) E Q' (k a) (l b)) :
    Sim R E Q' (m >>= k) (n >>= l) := by
  intro s t hr
  rw [bind_apply, bind_apply]
  cases hm : m s with
  | none =>
    have hrel := h s t hr
    rw [hm] at hrel
    generalize n t = y at hrel
    cases hrel
    exact .bound
  | some r =>
    have hrel := h s t hr
    rw [hm] at hrel
    generalize n t = y at hrel
    cases hrel with
    | error he => exact .error he
    | value hq => exact hk _ _ _ _ hq

/-- Two conditionals whose tests agree on related states. -/
theorem Sim.ite {c d : Prop} [Decidable c] [Decidable d] {m m' : Prog σ α} {n n' : Prog τ β}
    (hcd : ∀ s t, R s t → (c ↔ d)) (ht : c → Sim R E Q m n) (hf : ¬ c → Sim R E Q m' n') :
    Sim R E Q (if c then m else m') (if d then n else n') := by
  intro s t hr
  by_cases hc : c
  · rw [if_pos hc, if_pos ((hcd s t hr).mp hc)]
    exact ht hc s t hr
  · rw [if_neg hc, if_neg (fun hd => hc ((hcd s t hr).mpr hd))]
    exact hf hc s t hr

theorem Sim.conseq {R' : σ → τ → Prop} {Q₂ : α → β → σ → τ → Prop} {m : Prog σ α} {n : Prog τ β}
    (h : Sim R E Q m n) (hR : ∀ s t, R' s t → R s t) (hQ : ∀ a b s t, Q a b s t → Q₂ a b s t) :
    Sim R' E Q₂ m n :=
  fun s t hr => (h s t (hR s t hr)).mono hQ

theorem Sim.modify {f : σ → σ} {g : τ → τ} {Q : Unit → Unit → σ → τ → Prop}
    (h : ∀ s t, R s t → Q () () (f s) (g t)) : Sim R E Q (Prog.modify f) (Prog.modify g) :=
  fun s t hr => .value (h s t hr)

end Rules

/-! ## The judgement on one program -/

/-- From a state that satisfies `P` the program ends within its bound, and if it returns a value
then `Q` holds of the value and the state. -/
def Total (P : σ → Prop) (Q : α → σ → Prop) (m : Prog σ α) : Prop :=
  ∀ s, P s → ∃ r s', m s = some (r, s') ∧ ∀ a, r = some a → Q a s'

section Rules

variable {P : σ → Prop} {Q : α → σ → Prop} {Q' : β → σ → Prop}

theorem Total.pure {a : α} (h : ∀ s, P s → Q a s) : Total P Q (Pure.pure a) :=
  fun s hs => ⟨some a, s, rfl, fun _ hb => Option.some.inj hb ▸ h s hs⟩

theorem Total.fail : Total P Q (Prog.fail : Prog σ α) := fun s _ => ⟨none, s, rfl, nofun⟩

theorem Total.bind {m : Prog σ α} {k : α → Prog σ β} (h : Total P Q m)
    (hk : ∀ a, Total (Q a) Q' (k a)) : Total P Q' (m >>= k) := by
  intro s hs
  obtain ⟨r, s', hrun, hq⟩ := h s hs
  cases r with
  | none => exact ⟨none, s', bind_of_fail hrun, nofun⟩
  | some a =>
    rw [bind_of_ok hrun]
    exact hk a s' (hq a rfl)

theorem Total.ite {c : Prop} [Decidable c] {m m' : Prog σ α} (ht : c → Total P Q m)
    (hf : ¬ c → Total P Q m') : Total P Q (if c then m else m') := by
  split
  · next hc => exact ht hc
  · next hc => exact hf hc

theorem Total.conseq {P' : σ → Prop} {Q₂ : α → σ → Prop} {m : Prog σ α} (h : Total P Q m)
    (hP : ∀ s, P' s → P s) (hQ : ∀ a s, Q a s → Q₂ a s) : Total P' Q₂ m := by
  intro s hs
  obtain ⟨r, s', hrun, hq⟩ := h s (hP s hs)
  exact ⟨r, s', hrun, fun a ha => hQ a s' (hq a ha)⟩

theorem Total.modify {f : σ → σ} {Q : Unit → σ → Prop} (h : ∀ s, P s → Q () (f s)) :
    Total P Q (Prog.modify f) :=
  fun s hs => ⟨some (), f s, rfl, fun _ _ => h s hs⟩

end Rules

/-! ## Quantities that never fall -/

/-- Whatever its result, a run does not lower `f`. -/
def Grows (f : σ → Nat) (m : Prog σ α) : Prop := ∀ s r s', m s = some (r, s') → f s ≤ f s'

/-! ## Invariants -/

/-- Whatever its result, a run that starts in the invariant ends in it. -/
def Preserves (I : σ → Prop) (m : Prog σ α) : Prop := ∀ s r s', m s = some (r, s') → I s → I s'

section Rules

variable {I : σ → Prop}

theorem Preserves.pure (a : α) : Preserves I (Pure.pure a) := by
  rintro s r s' ⟨⟩ hs
  exact hs

theorem Preserves.fail : Preserves I (Prog.fail : Prog σ α) := by
  rintro s r s' ⟨⟩ hs
  exact hs

theorem Preserves.diverge : Preserves I (Prog.diverge : Prog σ α) := nofun

theorem Preserves.bind {m : Prog σ α} {k : α → Prog σ β} (h : Preserves I m)
    (hk : ∀ a, Preserves I (k a)) : Preserves I (m >>= k) := by
  intro s r s'' hrun hs
  rcases bind_cases hrun with ⟨-, hfail⟩ | ⟨a, s', hm, hrest⟩
  · exact h s _ s'' hfail hs
  · exact hk a s' r s'' hrest (h s _ s' hm hs)

theorem Preserves.ite {c : Prop} [Decidable c] {m m' : Prog σ α} (ht : Preserves I m)
    (hf : Preserves I m') : Preserves I (if c then m else m') := by
  split
  · exact ht
  · exact hf

theorem Preserves.modify {g : σ → σ} (h : ∀ s, I s → I (g s)) : Preserves I (Prog.modify g) := by
  rintro s r s' ⟨⟩ hs
  exact h s hs

theorem Preserves.modifyGet {g : σ → α × σ} (h : ∀ s, I s → I (g s).2) :
    Preserves I (Prog.modifyGet g) := by
  rintro s r s' ⟨⟩ hs
  exact h s hs

end Rules

/-! ## Bounds that differ -/

/-- What the first program returns within its bound, the second returns within its own. -/
def Le (m n : Prog σ α) : Prop := ∀ s r, m s = some r → n s = some r

section Rules

theorem Le.refl (m : Prog σ α) : Le m m := fun _ _ h => h

theorem Le.diverge {m : Prog σ α} : Le Prog.diverge m := nofun

theorem Le.bind {m n : Prog σ α} {k l : α → Prog σ β} (h : Le m n) (hk : ∀ a, Le (k a) (l a)) :
    Le (m >>= k) (n >>= l) := by
  rintro s ⟨r, s''⟩ hrun
  rcases bind_cases hrun with ⟨rfl, hfail⟩ | ⟨a, s', hm, hrest⟩
  · exact bind_of_fail (h s _ hfail)
  · rw [bind_of_ok (h s _ hm)]
    exact hk a s' _ hrest

theorem Le.ite {c : Prop} [Decidable c] {m m' n n' : Prog σ α} (ht : Le m n) (hf : Le m' n') :
    Le (if c then m else m') (if c then n else n') := by
  split
  · exact ht
  · exact hf

end Rules

end Prog
