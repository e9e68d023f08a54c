import Mathlib.Logic.Relation

/-!
# Programs that backtrack

A pattern is built from partial steps on a state by sequence, choice and repetition.  Its meaning is
the list of the states to which it leads, in the order in which they are tried.  The program of a
pattern runs on a machine that saves the alternatives on a stack; it ends with the first state of
the list, and gives up where the list is empty.
-/

namespace Backtrack

variable {σ : Type*}

/-! ## 1. Patterns -/

inductive Pat (σ : Type*)
  | eps
  | act (f : σ → Option σ)
  | seq (p q : Pat σ)
  | alt (p q : Pat σ)
  | maybe (p : Pat σ)
  | star (p : Pat σ)

/-- The pattern a number of times. -/
def Pat.times (p : Pat σ) : Nat → Pat σ
  | 0 => .eps
  | n + 1 => .seq (p.times n) p

/-- The pattern up to a number of times, as often as possible first. -/
def Pat.upTo (p : Pat σ) : Nat → Pat σ
  | 0 => .eps
  | n + 1 => .maybe (.seq p (p.upTo n))

/-- A pattern leads from one state to another. -/
inductive Leads : Pat σ → σ → σ → Prop
  | eps {x : σ} : Leads .eps x x
  | act {f : σ → Option σ} {x y : σ} (h : f x = some y) : Leads (.act f) x y
  | seq {p q : Pat σ} {x y z : σ} (hp : Leads p x y) (hq : Leads q y z) : Leads (.seq p q) x z
  | left {p q : Pat σ} {x y : σ} (h : Leads p x y) : Leads (.alt p q) x y
  | right {p q : Pat σ} {x y : σ} (h : Leads q x y) : Leads (.alt p q) x y
  | once {p : Pat σ} {x y : σ} (h : Leads p x y) : Leads (.maybe p) x y
  | skip {p : Pat σ} {x : σ} : Leads (.maybe p) x x
  | more {p : Pat σ} {x y z : σ} (hp : Leads p x y) (hq : Leads (.star p) y z) :
      Leads (.star p) x z
  | stop {p : Pat σ} {x : σ} : Leads (.star p) x x

/-- The states to which a pattern leads from those of a list, in the order in which they are tried:
all from the first state, then all from the second. -/
inductive Outcomes : Pat σ → List σ → List σ → Prop
  | nil {p : Pat σ} : Outcomes p [] []
  | cons {p : Pat σ} {x : σ} {xs ys zs : List σ} (h : Outcomes p [x] ys)
      (hrest : Outcomes p xs zs) : Outcomes p (x :: xs) (ys ++ zs)
  | eps {x : σ} : Outcomes .eps [x] [x]
  | act {f : σ → Option σ} {x : σ} : Outcomes (.act f) [x] (f x).toList
  | seq {p q : Pat σ} {x : σ} {ys zs : List σ} (hp : Outcomes p [x] ys) (hq : Outcomes q ys zs) :
      Outcomes (.seq p q) [x] zs
  | alt {p q : Pat σ} {x : σ} {ys zs : List σ} (hp : Outcomes p [x] ys) (hq : Outcomes q [x] zs) :
      Outcomes (.alt p q) [x] (ys ++ zs)
  | maybe {p : Pat σ} {x : σ} {ys : List σ} (h : Outcomes p [x] ys) :
      Outcomes (.maybe p) [x] (ys ++ [x])
  | star {p : Pat σ} {x : σ} {ys zs : List σ} (hp : Outcomes p [x] ys)
      (hq : Outcomes (.star p) ys zs) : Outcomes (.star p) [x] (zs ++ [x])

/-- What is tried are the states to which the pattern leads. -/
theorem Outcomes.mem_iff {p : Pat σ} {xs zs : List σ} (h : Outcomes p xs zs) {z : σ} :
    z ∈ zs ↔ ∃ x ∈ xs, Leads p x z := by
  induction h generalizing z with
  | nil => exact ⟨fun h => absurd h List.not_mem_nil, fun ⟨x, h, _⟩ => absurd h List.not_mem_nil⟩
  | cons h hrest ih ihrest =>
    rw [List.mem_append, ih, ihrest]
    simp
  | @eps x =>
    simp only [List.mem_singleton, exists_eq_left]
    constructor
    · intro h
      rw [h]
      exact .eps
    · intro h
      cases h
      rfl
  | @act f x =>
    simp only [Option.mem_toList, List.mem_singleton, exists_eq_left]
    constructor
    · exact .act
    · intro h
      cases h with
      | act h => exact h
  | seq hp hq ihp ihq =>
    rw [ihq]
    simp only [ihp, List.mem_singleton, exists_eq_left]
    constructor
    · intro ⟨y, hy, hz⟩
      exact .seq hy hz
    · intro h
      cases h with
      | seq hy hz => exact ⟨_, hy, hz⟩
  | alt hp hq ihp ihq =>
    rw [List.mem_append, ihp, ihq]
    simp only [List.mem_singleton, exists_eq_left]
    constructor
    · intro h
      rcases h with h | h
      · exact .left h
      · exact .right h
    · intro h
      cases h with
      | left h => exact .inl h
      | right h => exact .inr h
  | maybe hp ihp =>
    rw [List.mem_append, ihp]
    simp only [List.mem_singleton, exists_eq_left]
    constructor
    · intro h
      rcases h with h | rfl
      · exact .once h
      · exact .skip
    · intro h
      cases h with
      | once h => exact .inl h
      | skip => exact .inr rfl
  | star hp hq ihp ihq =>
    rw [List.mem_append, ihq]
    simp only [ihp, List.mem_singleton, exists_eq_left]
    constructor
    · intro h
      rcases h with ⟨y, hy, hz⟩ | rfl
      · exact .more hy hz
      · exact .stop
    · intro h
      cases h with
      | more hy hz => exact .inl ⟨_, hy, hz⟩
      | stop => exact .inr rfl

/-- The pattern leads from a state with the property to such states only. -/
def Keeps (I : σ → Prop) (p : Pat σ) : Prop := ∀ x y, Leads p x y → I x → I y

section
variable {I : σ → Prop} {p q : Pat σ}

theorem Keeps.eps : Keeps I .eps := by
  intro x y h hx
  cases h
  exact hx

theorem Keeps.act {f : σ → Option σ} (h : ∀ x y, f x = some y → I x → I y) : Keeps I (.act f) := by
  intro x y hlead
  cases hlead with
  | act hf => exact h x y hf

theorem Keeps.seq (hp : Keeps I p) (hq : Keeps I q) : Keeps I (.seq p q) := by
  intro x z h hx
  cases h with
  | seq hy hz => exact hq _ _ hz (hp _ _ hy hx)

theorem Keeps.alt (hp : Keeps I p) (hq : Keeps I q) : Keeps I (.alt p q) := by
  intro x y h hx
  cases h with
  | left h => exact hp _ _ h hx
  | right h => exact hq _ _ h hx

theorem Keeps.maybe (hp : Keeps I p) : Keeps I (.maybe p) := by
  intro x y h hx
  cases h with
  | once h => exact hp _ _ h hx
  | skip => exact hx

theorem Keeps.star (hp : Keeps I p) : Keeps I (.star p) := by
  intro x y h
  generalize hs : Pat.star p = s at h
  induction h with
  | more hy hz ihy ihz =>
    cases hs
    exact fun hx => ihz rfl (hp _ _ hy hx)
  | stop => exact id
  | eps => cases hs
  | act => cases hs
  | seq => cases hs
  | left => cases hs
  | right => cases hs
  | once => cases hs
  | skip => cases hs

theorem Keeps.times (hp : Keeps I p) (n : Nat) : Keeps I (p.times n) := by
  induction n with
  | zero => exact .eps
  | succ n ih => exact ih.seq hp

theorem Keeps.upTo (hp : Keeps I p) (n : Nat) : Keeps I (p.upTo n) := by
  induction n with
  | zero => exact .eps
  | succ n ih => exact .maybe (hp.seq ih)

end

/-! ## 2. Patterns whose search ends -/

theorem exists_outcomes_of_each {p : Pat σ} {xs : List σ}
    (h : ∀ x ∈ xs, ∃ zs, Outcomes p [x] zs) : ∃ zs, Outcomes p xs zs := by
  induction xs with
  | nil => exact ⟨[], .nil⟩
  | cons x xs ih =>
    obtain ⟨ys, hys⟩ := h x List.mem_cons_self
    obtain ⟨zs, hzs⟩ := ih fun x' hx' => h x' (List.mem_cons_of_mem _ hx')
    exact ⟨ys ++ zs, .cons hys hzs⟩

/-- The pattern leads to smaller states only. -/
def Shrinks (μ : σ → Nat) (p : Pat σ) : Prop := ∀ x y, Leads p x y → μ y < μ x

/-- What is repeated without end leads to smaller states only. -/
def Productive (μ : σ → Nat) : Pat σ → Prop
  | .eps => True
  | .act _ => True
  | .seq p q => Productive μ p ∧ Productive μ q
  | .alt p q => Productive μ p ∧ Productive μ q
  | .maybe p => Productive μ p
  | .star p => Productive μ p ∧ Shrinks μ p

theorem Productive.exists_outcomes {μ : σ → Nat} {p : Pat σ} (h : Productive μ p) (xs : List σ) :
    ∃ zs, Outcomes p xs zs := by
  induction p generalizing xs with
  | eps => exact exists_outcomes_of_each fun x _ => ⟨[x], .eps⟩
  | act f => exact exists_outcomes_of_each fun x _ => ⟨(f x).toList, .act⟩
  | seq p q ihp ihq =>
    apply exists_outcomes_of_each
    intro x _
    obtain ⟨ys, hys⟩ := ihp h.1 [x]
    obtain ⟨zs, hzs⟩ := ihq h.2 ys
    exact ⟨zs, .seq hys hzs⟩
  | alt p q ihp ihq =>
    apply exists_outcomes_of_each
    intro x _
    obtain ⟨ys, hys⟩ := ihp h.1 [x]
    obtain ⟨zs, hzs⟩ := ihq h.2 [x]
    exact ⟨ys ++ zs, .alt hys hzs⟩
  | maybe p ihp =>
    apply exists_outcomes_of_each
    intro x _
    obtain ⟨ys, hys⟩ := ihp h [x]
    exact ⟨ys ++ [x], .maybe hys⟩
  | star p ihp =>
    apply exists_outcomes_of_each
    intro x hx
    clear hx
    -- one more round starts from a smaller state
    induction hμ : μ x using Nat.strongRecOn generalizing x with
    | _ m ih =>
      obtain ⟨ys, hys⟩ := ihp h.1 [x]
      have hsmall : ∀ y ∈ ys, ∃ zs, Outcomes (.star p) [y] zs := by
        intro y hy
        obtain ⟨x', hx', hlead⟩ := hys.mem_iff.mp hy
        rw [List.mem_singleton.mp hx'] at hlead
        refine ih (μ y) ?_ y rfl
        rw [← hμ]
        exact h.2 x y hlead
      obtain ⟨zs, hzs⟩ := exists_outcomes_of_each hsmall
      exact ⟨zs ++ [x], .star hys hzs⟩

theorem Productive.times {μ : σ → Nat} {p : Pat σ} (h : Productive μ p) (n : Nat) :
    Productive μ (p.times n) := by
  induction n with
  | zero => trivial
  | succ n ih => exact ⟨ih, h⟩

theorem Productive.upTo {μ : σ → Nat} {p : Pat σ} (h : Productive μ p) (n : Nat) :
    Productive μ (p.upTo n) := by
  induction n with
  | zero => trivial
  | succ n ih => exact ⟨h, ih⟩

/-! ## 3. The machine -/

inductive Instr (σ : Type*)
  | act (f : σ → Option σ)
  | fork (dst : Nat)
  | jump (dst : Nat)
  | stop

/-- The place in the program, the state, and the alternatives that are saved. -/
structure Cfg (σ : Type*) where
  pc : Nat
  st : σ
  saved : List (Nat × σ)

/-- Going on with the last alternative; `none` has given up. -/
def resume : List (Nat × σ) → Option (Cfg σ)
  | [] => none
  | (pc, x) :: saved => some ⟨pc, x, saved⟩

section
variable (prog : Nat → Option (Instr σ))

def step (c : Cfg σ) : Option (Cfg σ) :=
  match prog c.pc with
  | some (.act f) =>
    match f c.st with
    | some y => some ⟨c.pc + 1, y, c.saved⟩
    | none => resume c.saved
  | some (.fork dst) => some ⟨c.pc + 1, c.st, (dst, c.st) :: c.saved⟩
  | some (.jump dst) => some ⟨dst, c.st, c.saved⟩
  | some .stop => some c
  | none => resume c.saved

/-- The machine gets from one configuration to another. -/
def Moves : Option (Cfg σ) → Option (Cfg σ) → Prop :=
  Relation.ReflTransGen fun s t => ∃ c, s = some c ∧ t = step prog c

/-- From `s` the machine gets to the place `b` with the states of the list in turn, each one when it
resumes behind the one before; in the end it resumes `saved`. -/
def Yields (b : Nat) (saved : List (Nat × σ)) : List σ → Option (Cfg σ) → Prop
  | [], s => Moves prog s (resume saved)
  | y :: ys, s => ∃ more, Moves prog s (some ⟨b, y, more ++ saved⟩) ∧
      Yields b saved ys (resume (more ++ saved))

/-- The program of a pattern lies between two places. -/
inductive Placed : Pat σ → Nat → Nat → Prop
  | eps {a : Nat} : Placed .eps a a
  | act {f : σ → Option σ} {a : Nat} (h : prog a = some (.act f)) : Placed (.act f) a (a + 1)
  | seq {p q : Pat σ} {a b c : Nat} (hp : Placed p a b) (hq : Placed q b c) : Placed (.seq p q) a c
  | alt {p q : Pat σ} {a b c : Nat} (hfork : prog a = some (.fork (b + 1)))
      (hp : Placed p (a + 1) b) (hjump : prog b = some (.jump c)) (hq : Placed q (b + 1) c) :
      Placed (.alt p q) a c
  | maybe {p : Pat σ} {a b : Nat} (hfork : prog a = some (.fork b)) (hp : Placed p (a + 1) b) :
      Placed (.maybe p) a b
  | star {p : Pat σ} {a b : Nat} (hfork : prog a = some (.fork (b + 1))) (hp : Placed p (a + 1) b)
      (hjump : prog b = some (.jump a)) : Placed (.star p) a (b + 1)

end

section
variable {prog : Nat → Option (Instr σ)}

theorem Moves.next {s t : Option (Cfg σ)} {c : Cfg σ} (h : Moves prog s (some c))
    (hstep : step prog c = t) : Moves prog s t := h.tail ⟨c, rfl, hstep.symm⟩

theorem Yields.of_moves {b : Nat} {saved : List (Nat × σ)} {ys : List σ} {s t : Option (Cfg σ)}
    (h : Moves prog s t) (hy : Yields prog b saved ys t) : Yields prog b saved ys s := by
  cases ys with
  | nil => exact h.trans hy
  | cons y ys =>
    obtain ⟨more, hmoves, hrest⟩ := hy
    exact ⟨more, h.trans hmoves, hrest⟩

theorem Yields.one {b : Nat} {saved : List (Nat × σ)} {y : σ} {s : Option (Cfg σ)}
    (h : Moves prog s (some ⟨b, y, saved⟩)) : Yields prog b saved [y] s :=
  ⟨[], h, .refl⟩

/-- What comes behind the states of a list comes when their alternatives have run out. -/
theorem Yields.append {b : Nat} {saved : List (Nat × σ)} {ys zs : List σ} {s : Option (Cfg σ)}
    (more : List (Nat × σ)) (hy : Yields prog b (more ++ saved) ys s)
    (hz : Yields prog b saved zs (resume (more ++ saved))) :
    Yields prog b saved (ys ++ zs) s := by
  induction ys generalizing s with
  | nil => exact hz.of_moves hy
  | cons y ys ih =>
    obtain ⟨more', hmoves, hrest⟩ := hy
    rw [← List.append_assoc] at hmoves hrest
    exact ⟨more' ++ more, hmoves, ih hrest⟩

/-- From where the machine goes on to another place it gets there instead. -/
theorem Yields.jump {a b : Nat} (h : prog a = some (.jump b)) {saved : List (Nat × σ)} {ys : List σ}
    {s : Option (Cfg σ)} (hy : Yields prog a saved ys s) : Yields prog b saved ys s := by
  induction ys generalizing s with
  | nil => exact hy
  | cons y ys ih =>
    obtain ⟨more, hmoves, hrest⟩ := hy
    refine ⟨more, hmoves.next ?_, ih hrest⟩
    rw [step, h]

/-- The program of a pattern yields its outcomes at its end. -/
theorem Outcomes.yields {p : Pat σ} {xs zs : List σ} (ho : Outcomes p xs zs) {a b : Nat}
    (hp : Placed prog p a b) {saved : List (Nat × σ)} {s : Option (Cfg σ)}
    (h : Yields prog a saved xs s) : Yields prog b saved zs s := by
  induction ho generalizing a b saved s with
  | nil => exact h
  | cons _ _ ih ihrest =>
    obtain ⟨more, hmoves, hrest⟩ := h
    exact .append more (ih hp (.one hmoves)) (ihrest hp hrest)
  | eps =>
    cases hp
    exact h
  | @act f x =>
    cases hp with
    | act hinstr =>
      obtain ⟨more, hmoves, hrest⟩ := h
      cases hf : f x with
      | none =>
        refine (hmoves.next ?_).trans hrest
        rw [step, hinstr]
        simp only [hf]
      | some y =>
        refine ⟨more, hmoves.next ?_, hrest⟩
        rw [step, hinstr]
        simp only [hf]
  | seq _ _ ihp ihq =>
    cases hp with
    | seq hp hq => exact ihq hq (ihp hp h)
  | @alt p q x ys zs _ _ ihp ihq =>
    cases hp with
    | @alt _ _ _ c _ hfork hp hjump hq =>
      obtain ⟨more, hmoves, hrest⟩ := h
      have hforked : Moves prog s (some ⟨a + 1, x, (c + 1, x) :: (more ++ saved)⟩) := by
        refine hmoves.next ?_
        rw [step, hfork]
      have hleft := (ihp hp (.one hforked)).jump hjump
      have hright : Yields prog b saved _ (some ⟨c + 1, x, more ++ saved⟩) :=
        ihq hq ⟨more, .refl, hrest⟩
      exact .append ((c + 1, x) :: more) hleft hright
  | @maybe p x ys _ ihp =>
    cases hp with
    | maybe hfork hp =>
      obtain ⟨more, hmoves, hrest⟩ := h
      have hforked : Moves prog s (some ⟨a + 1, x, (b, x) :: (more ++ saved)⟩) := by
        refine hmoves.next ?_
        rw [step, hfork]
      exact .append ((b, x) :: more) (ihp hp (.one hforked)) ⟨more, .refl, hrest⟩
  | @star p x ys zs _ _ ihp ihq =>
    cases hp with
    | @star _ _ c hfork hp hjump =>
      obtain ⟨more, hmoves, hrest⟩ := h
      have hforked : Moves prog s (some ⟨a + 1, x, (c + 1, x) :: (more ++ saved)⟩) := by
        refine hmoves.next ?_
        rw [step, hfork]
      -- behind each round the machine is at the start of the loop again
      have hround := (ihp hp (.one hforked)).jump hjump
      exact .append ((c + 1, x) :: more) (ihq (.star hfork hp hjump) hround) ⟨more, .refl, hrest⟩

/-! ## 4. What a program ends with -/

/-- The machine ends with a state, or gives up. -/
def Ends (prog : Nat → Option (Instr σ)) (s : Option (Cfg σ)) : Option σ → Prop
  | none => Moves prog s none
  | some z => ∃ b saved, prog b = some .stop ∧ Moves prog s (some ⟨b, z, saved⟩)

/-- A program ends with the first outcome of its pattern. -/
theorem Outcomes.ends {p : Pat σ} {x : σ} {zs : List σ} (ho : Outcomes p [x] zs) {a b : Nat}
    (hp : Placed prog p a b) (hstop : prog b = some .stop) :
    Ends prog (some ⟨a, x, []⟩) zs.head? := by
  have hy : Yields prog b [] zs (some ⟨a, x, []⟩) := ho.yields hp (.one .refl)
  cases zs with
  | nil => exact hy
  | cons z zs =>
    obtain ⟨more, hmoves, -⟩ := hy
    exact ⟨b, more ++ [], hstop, hmoves⟩

end

end Backtrack
