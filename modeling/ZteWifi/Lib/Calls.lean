import ZteWifi.Lib.Prog

/-!
# Programs as trees of calls

A program that reaches its state through calls only is a tree: a call, and for each answer what
follows.  Under a handler, which says what a call does to a state, the tree is a `Prog`; and in the
tree one can say what holds at every call of a run, not only at its end.  A handler may keep more
than the program needs, such as what has been read so far.
-/

/-- A program that makes calls `i : ι` with answers in `κ i`. -/
inductive Calls (ι : Type) (κ : ι → Type) (α : Type)
  | ret (a : α)
  /-- The error return. -/
  | fail
  /-- A recursion that has used up its bound. -/
  | bound
  | call (i : ι) (k : κ i → Calls ι κ α)

namespace Calls

variable {ι : Type} {κ : ι → Type} {α β γ σ τ : Type}

protected def bind : Calls ι κ α → (α → Calls ι κ β) → Calls ι κ β
  | ret a, f => f a
  | fail, _ => fail
  | bound, _ => bound
  | call i k, f => call i fun a => (k a).bind f

instance : Monad (Calls ι κ) where
  pure := ret
  bind := Calls.bind

/-- One call. -/
def perform (i : ι) : Calls ι κ (κ i) := call i ret

/-- What the calls do: an answer and the state behind it. -/
abbrev Handler (ι : Type) (κ : ι → Type) (σ : Type) := (i : ι) → σ → κ i × σ

/-! ## 1. Runs -/

/-- The tree as a program on the state. -/
def denote (h : Handler ι κ σ) : Calls ι κ α → Prog σ α
  | ret a => pure a
  | fail => .fail
  | bound => .diverge
  | call i k => .modifyGet (h i) >>= fun a => denote h (k a)

/-- The calls of a run, each with the state before it. -/
def points (h : Handler ι κ σ) : Calls ι κ α → σ → List (ι × σ)
  | ret _, _ => []
  | fail, _ => []
  | bound, _ => []
  | call i k, s => (i, s) :: points h (k (h i s).1) (h i s).2

section
variable (h : Handler ι κ σ)

theorem denote_bind (m : Calls ι κ α) (f : α → Calls ι κ β) :
    denote h (m >>= f) = denote h m >>= fun a => denote h (f a) := by
  change denote h (m.bind f) = _
  induction m with
  | ret a => rfl
  | fail => rfl
  | bound => rfl
  | call i k ih =>
    rw [Calls.bind, denote, denote, Prog.bind_assoc]
    congr 1
    funext a
    exact ih a

end

/-- The tree is the program.  The rules follow the program text. -/
def Denotes (h : Handler ι κ σ) (m : Calls ι κ α) (p : Prog σ α) : Prop := denote h m = p

section
variable {h : Handler ι κ σ}

theorem Denotes.pure (a : α) : Denotes h (pure a) (pure a) := rfl

theorem Denotes.fail : Denotes h (fail : Calls ι κ α) .fail := rfl

theorem Denotes.bound : Denotes h (bound : Calls ι κ α) .diverge := rfl

theorem Denotes.perform (i : ι) : Denotes h (perform i) (.modifyGet (h i)) := rfl

theorem Denotes.bind {m : Calls ι κ α} {p : Prog σ α} {f : α → Calls ι κ β} {q : α → Prog σ β}
    (hm : Denotes h m p) (hf : ∀ a, Denotes h (f a) (q a)) :
    Denotes h (m >>= f) (p >>= q) := by
  rw [Denotes, denote_bind, hm, funext hf]

/-- A sequence whose first part is one itself. -/
theorem Denotes.bind_bind {m : Calls ι κ α} {p : Prog σ α} {f : α → Calls ι κ β}
    {k : β → Calls ι κ γ} {q : α → Prog σ γ} (hm : Denotes h m p)
    (hf : ∀ a, Denotes h (f a >>= k) (q a)) : Denotes h ((m >>= f) >>= k) (p >>= q) := by
  have hq : q = fun a => denote h (f a) >>= fun b => denote h (k b) :=
    funext fun a => (hf a).symm.trans (denote_bind h (f a) k)
  rw [Denotes, denote_bind, denote_bind, Prog.bind_assoc, hm, hq]

theorem Denotes.ite_bind {c : Prop} [Decidable c] {m n : Calls ι κ α} {k : α → Calls ι κ β}
    {p q : Prog σ β} (hm : Denotes h (m >>= k) p) (hn : Denotes h (n >>= k) q) :
    Denotes h ((if c then m else n) >>= k) (if c then p else q) := by
  split
  · exact hm
  · exact hn

theorem Denotes.ite {c : Prop} [Decidable c] {m n : Calls ι κ α} {p q : Prog σ α}
    (hm : Denotes h m p) (hn : Denotes h n q) :
    Denotes h (if c then m else n) (if c then p else q) := by
  split
  · exact hm
  · exact hn

end

/-- A handler `g` keeps more than `h`: the run is the same on what `h` knows. -/
theorem denote_forget {h : Handler ι κ σ} {g : Handler ι κ τ} {forget : τ → σ}
    (hsame : ∀ i t, h i (forget t) = ((g i t).1, forget (g i t).2)) (m : Calls ι κ α) (t : τ) :
    denote h m (forget t) = (denote g m t).map fun r => (r.1, forget r.2) := by
  induction m generalizing t with
  | ret a => rfl
  | fail => rfl
  | bound => rfl
  | call i k ih =>
    change denote h (k (h i (forget t)).1) (h i (forget t)).2 = _
    rw [hsame]
    exact ih (g i t).1 (g i t).2

/-! ## 2. What holds at every call -/

/-- From the state, every call meets `J`, an error return leaves `E`, and a return leaves `Q`. -/
def wp (h : Handler ι κ σ) (J : ι → σ → Prop) (E : σ → Prop) :
    Calls ι κ α → (α → σ → Prop) → σ → Prop
  | ret a, Q, s => Q a s
  | fail, _, s => E s
  | bound, _, _ => True
  | call i k, Q, s => J i s ∧ wp h J E (k (h i s).1) Q (h i s).2

section
variable {h : Handler ι κ σ} {J : ι → σ → Prop} {E : σ → Prop}

theorem wp_sound {m : Calls ι κ α} {Q : α → σ → Prop} {s : σ} (hm : wp h J E m Q s) :
    (∀ p ∈ points h m s, J p.1 p.2) ∧ (∀ s', denote h m s = some (none, s') → E s') ∧
      ∀ a s', denote h m s = some (some a, s') → Q a s' := by
  induction m generalizing s with
  | ret a => exact ⟨nofun, nofun, fun _ _ heq => by cases heq; exact hm⟩
  | fail => exact ⟨nofun, fun _ heq => by cases heq; exact hm, nofun⟩
  | bound => exact ⟨nofun, nofun, nofun⟩
  | call i k ih =>
    obtain ⟨hi, hk⟩ := hm
    obtain ⟨hpoints, herror, hvalue⟩ := ih _ hk
    exact ⟨List.forall_mem_cons.mpr ⟨hi, hpoints⟩, herror, hvalue⟩

theorem wp_mono {m : Calls ι κ α} {Q Q' : α → σ → Prop} {s : σ} (hm : wp h J E m Q s)
    (hQ : ∀ a s, Q a s → Q' a s) : wp h J E m Q' s := by
  induction m generalizing s with
  | ret a => exact hQ a s hm
  | fail => exact hm
  | bound => trivial
  | call i k ih => exact ⟨hm.1, ih _ hm.2⟩

/-- A sequence: the second part starts where the first ends. -/
theorem wp_bind {m : Calls ι κ α} {f : α → Calls ι κ β} {Q : β → σ → Prop} {s : σ} :
    wp h J E (m >>= f) Q s ↔ wp h J E m (fun a => wp h J E (f a) Q) s := by
  change wp h J E (m.bind f) Q s ↔ _
  induction m generalizing s with
  | ret a => exact Iff.rfl
  | fail => exact Iff.rfl
  | bound => exact Iff.rfl
  | call i k ih => exact and_congr_right fun _ => ih _

end

/-! ## 3. Invariants -/

/-- From a state with `I`, every call meets `J` and the state in the end has `I` again. -/
def Keeps (h : Handler ι κ σ) (J : ι → σ → Prop) (I : σ → Prop) (m : Calls ι κ α) : Prop :=
  ∀ s, I s → wp h J I m (fun _ => I) s

section
variable {h : Handler ι κ σ} {J : ι → σ → Prop} {I : σ → Prop}

theorem Keeps.pure (a : α) : Keeps h J I (pure a) := fun _ hs => hs

theorem Keeps.fail : Keeps h J I (fail : Calls ι κ α) := fun _ hs => hs

theorem Keeps.bound : Keeps h J I (bound : Calls ι κ α) := fun _ _ => trivial

theorem Keeps.bind {m : Calls ι κ α} {f : α → Calls ι κ β} (hm : Keeps h J I m)
    (hf : ∀ a, Keeps h J I (f a)) : Keeps h J I (m >>= f) :=
  fun s hs => wp_bind.mpr (wp_mono (hm s hs) fun a s hs => hf a s hs)

theorem Keeps.ite {p : Prop} [Decidable p] {m n : Calls ι κ α} (hm : Keeps h J I m)
    (hn : Keeps h J I n) : Keeps h J I (if p then m else n) := by
  split
  · exact hm
  · exact hn

end

end Calls
