import Mathlib.Tactic.Ring
import ZteWifi.Lib.Splice
import ZteWifi.Neatvi.Regex

/-!
# The programs of regular expressions

`rnode_emit` writes a program from left to right and fills in the places to which it leads later.
What comes out is told here directly: the program of a tree from a place on.  `rnode_count` has room
for it, where no number overflows and no bounds of a repetition are the wrong way round.
-/

namespace Neatvi

/-! ## 1. The program of a tree -/

/-- The program of a node that is emitted once, from the place `a` on. -/
def norepCode (rn : Rn) (ra : Ratom) (k1 k2 : Nat → List Rinst) (grp a : Nat) : List Rinst :=
  match rn with
  | .alt =>
    let l := k1 (a + 1)
    let b := a + 1 + l.length
    let r := k2 (b + 1)
    { ri := .fork, dst := (b + 1 : Nat) } ::
      (l ++ { ri := .jump, dst := (b + 1 + r.length : Nat) } :: r)
  | .cat =>
    let l := k1 a
    l ++ k2 (a + l.length)
  | .grp => { ri := .mark, mark := 2 * grp } :: (k1 (a + 1) ++ [{ ri := .mark, mark := 2 * grp + 1 }])
  | .atom => [{ ri := .atom, ra := ra }]

/-- A program a number of times. -/
def timesCode (k : Nat → List Rinst) : Nat → Nat → List Rinst
  | 0, _ => []
  | n + 1, a =>
    let l := timesCode k n a
    l ++ k (a + l.length)

/-- A program a number of times, with a fork to `stop` before each time. -/
def forksCode (k : Nat → List Rinst) (stop : Int) : Nat → Nat → List Rinst
  | 0, _ => []
  | n + 1, a =>
    let l := k (a + 1)
    { ri := .fork, dst := stop } :: (l ++ forksCode k stop n (a + 1 + l.length))

/-- The program of a repetition without end. -/
def starCode (k : Nat → List Rinst) (a : Nat) : List Rinst :=
  let l := k (a + 1)
  { ri := .fork, dst := (a + 1 + l.length + 1 : Nat) } :: (l ++ [{ ri := .jump, dst := a }])

def repCode (k : Nat → List Rinst) (mincnt : Nat) (maxcnt : Int) (a : Nat) : List Rinst :=
  if mincnt = 0 ∧ maxcnt = 0 then []
  else if mincnt = 1 ∧ maxcnt = 1 then k a
  else
    let l := timesCode k mincnt a
    let b := a + l.length
    if maxcnt < 0 then l ++ starCode k b
    else
      let n := (maxcnt - mincnt).toNat
      l ++ forksCode k (b + (forksCode k 0 n b).length : Nat) n b

/-- The program of a tree from the place `a` on. -/
def code : Rnode → Nat → List Rinst
  | .null, _ => []
  | .node rn ra c1 c2 mincnt maxcnt grp, a =>
    repCode (norepCode rn ra (code c1) (code c2) grp) mincnt maxcnt a

/-! ## 2. What is emitted -/

theorem setDst_append (p : List Rinst) (ri : Rinst) (q : List Rinst) (dst : Int) :
    setDst (p ++ ri :: q) p.length dst = p ++ { ri with dst := dst } :: q := by
  induction p with
  | nil => rfl
  | cons r p ih =>
    show r :: setDst (p ++ ri :: q) p.length dst = _
    rw [ih]
    rfl

theorem repeat_emit {emit : List Rinst → List Rinst} {k : Nat → List Rinst}
    (h : ∀ p, emit p = p ++ k p.length) (n : Nat) (p : List Rinst) :
    Nat.repeat emit n p = p ++ timesCode k n p.length := by
  induction n with
  | zero => exact (List.append_nil p).symm
  | succ n ih =>
    show emit (Nat.repeat emit n p) = _
    rw [h, ih, List.length_append, List.append_assoc]
    rfl

/-- Following the forks from `jump` on ends within the program, so that nothing behind it is
touched. -/
def Within (stop : Int) (p : List Rinst) (jump : Int) : Prop :=
  ∀ fuel r, patchForks stop fuel jump (p ++ r) = patchForks stop fuel jump p ++ r

theorem patchForks_last (stop : Int) (fuel : Nat) {jump : Int} (h : jump < 0) (p : List Rinst) :
    patchForks stop fuel jump p = p := by
  cases fuel with
  | zero => rfl
  | succ fuel => rw [patchForks, if_neg (by omega)]

theorem within_last {jump : Int} (h : jump < 0) (stop : Int) (p : List Rinst) :
    Within stop p jump := by
  intro fuel r
  rw [patchForks_last stop fuel h, patchForks_last stop fuel h]

/-- A fork that leads to the one before it is sent on, and then those before it are. -/
theorem patchForks_fork (stop : Int) (fuel : Nat) {p : List Rinst} {jump : Int}
    (h : Within stop p jump) (q : List Rinst) :
    patchForks stop (fuel + 1) p.length (p ++ { ri := .fork, dst := jump } :: q) =
      patchForks stop fuel jump p ++ { ri := .fork, dst := stop } :: q := by
  rw [patchForks, if_pos (Int.natCast_nonneg _), Int.toNat_natCast, setDst_append,
    List.getElem?_append_right (Nat.le_refl _), Nat.sub_self]
  exact h fuel _

theorem within_fork {stop : Int} {p : List Rinst} {jump : Int} (h : Within stop p jump)
    (q : List Rinst) : Within stop (p ++ { ri := .fork, dst := jump } :: q) p.length := by
  intro fuel r
  cases fuel with
  | zero => rfl
  | succ fuel =>
    rw [patchForks_fork stop fuel h, List.append_assoc, List.cons_append,
      patchForks_fork stop fuel h, List.append_assoc, List.cons_append]

/-- The forks of the optional repetitions all lead to one place in the end. -/
theorem patchForks_emitForks {emit : List Rinst → List Rinst} {k : Nat → List Rinst}
    (hk : ∀ p, emit p = p ++ k p.length) (stop : Int) (fuel n : Nat) {p : List Rinst} {jump : Int}
    (h : Within stop p jump) :
    patchForks stop (fuel + n) (emitForks emit n (p, jump)).2 (emitForks emit n (p, jump)).1 =
      patchForks stop fuel jump p ++ forksCode k stop n p.length := by
  induction n generalizing fuel p jump with
  | zero => exact (List.append_nil _).symm
  | succ n ih =>
    have hone : emit (p ++ [{ ri := .fork, dst := jump }]) =
        p ++ { ri := .fork, dst := jump } :: k (p.length + 1) := by
      rw [hk, List.length_append, List.append_assoc]
      rfl
    rw [emitForks, hone, show fuel + (n + 1) = fuel + 1 + n by omega, ih _ (within_fork h _),
      patchForks_fork stop fuel h, List.append_assoc, List.length_append, List.length_cons,
      forksCode]
    simp only [List.cons_append, Nat.add_assoc, Nat.add_comm 1]

theorem emitForks_length {emit : List Rinst → List Rinst} {k : Nat → List Rinst}
    (hk : ∀ p, emit p = p ++ k p.length) (n : Nat) (p : List Rinst) (jump stop : Int) :
    (emitForks emit n (p, jump)).1.length = p.length + (forksCode k stop n p.length).length := by
  induction n generalizing p jump with
  | zero => rfl
  | succ n ih =>
    rw [emitForks, ih, hk, List.length_append, List.length_append, List.length_singleton, forksCode,
      List.length_cons, List.length_append]
    omega

theorem le_forksCode_length (k : Nat → List Rinst) (stop : Int) (n a : Nat) :
    n ≤ (forksCode k stop n a).length := by
  induction n generalizing a with
  | zero => exact Nat.zero_le _
  | succ n ih =>
    rw [forksCode, List.length_cons, List.length_append]
    have := ih (a + 1 + (k (a + 1)).length)
    omega

/-- The loop of a repetition without end, whose fork is filled in last. -/
theorem emitStar_eq {emit : List Rinst → List Rinst} {k : Nat → List Rinst}
    (hk : ∀ p, emit p = p ++ k p.length) (p : List Rinst) :
    setDst (emit (p ++ [{ ri := .fork }]) ++ [{ ri := .jump, dst := p.length }]) p.length
        (emit (p ++ [({ ri := .fork } : Rinst)]) ++
          [({ ri := .jump, dst := p.length } : Rinst)]).length =
      p ++ starCode k p.length := by
  have hemit : emit (p ++ [{ ri := .fork }]) ++ [{ ri := .jump, dst := p.length }] =
      p ++ { ri := .fork } :: (k (p.length + 1) ++ [{ ri := .jump, dst := p.length }]) := by
    rw [hk, List.append_assoc, List.append_assoc, List.length_append]
    rfl
  have hlen : (p ++ ({ ri := .fork } : Rinst) :: (k (p.length + 1) ++
      [({ ri := .jump, dst := p.length } : Rinst)])).length =
      p.length + 1 + (k (p.length + 1)).length + 1 := by
    rw [List.length_append, List.length_cons, List.length_append, List.length_singleton]
    omega
  rw [hemit, hlen, setDst_append]
  rfl

theorem emitRep_eq {emit : List Rinst → List Rinst} {k : Nat → List Rinst}
    (hk : ∀ p, emit p = p ++ k p.length) (mincnt : Nat) (maxcnt : Int) (p : List Rinst) :
    emitRep emit mincnt maxcnt p = p ++ repCode k mincnt maxcnt p.length := by
  unfold emitRep repCode
  split
  · exact (List.append_nil p).symm
  split
  · exact hk p
  rw [repeat_emit hk]
  generalize hl : timesCode k mincnt p.length = l
  generalize hn : (maxcnt - mincnt).toNat = n
  have hlen : (p ++ l).length = p.length + l.length := List.length_append
  have hforks := emitForks_length hk n (p ++ l) (-1)
  have hle := le_forksCode_length k 0 n (p ++ l).length
  have hpatch (stop : Int) (fuel : Nat) := patchForks_emitForks hk stop fuel n
    (within_last (show (-1 : Int) < 0 by decide) stop (p ++ l))
  cases hst : emitForks emit n (p ++ l, -1) with | mk q jump
  rw [hst] at hforks hpatch
  simp only at hforks hpatch
  have hfuel : q.length - n + n = q.length := by
    have := hforks 0
    omega
  have hq := hpatch q.length (q.length - n)
  rw [hfuel, patchForks_last _ _ (show (-1 : Int) < 0 by decide)] at hq
  simp only [hst, hq]
  split
  · next hneg =>
    have hzero : n = 0 := by omega
    subst hzero
    simp only [forksCode, List.append_nil]
    rw [emitStar_eq hk, hlen, List.append_assoc]
  · rw [hforks 0, hlen, List.append_assoc]

theorem rnodeEmitnorep_eq {e1 e2 : List Rinst → List Rinst} {k1 k2 : Nat → List Rinst}
    (h1 : ∀ p, e1 p = p ++ k1 p.length) (h2 : ∀ p, e2 p = p ++ k2 p.length) (rn : Rn) (ra : Ratom)
    (grp : Nat) (p : List Rinst) :
    rnodeEmitnorep rn ra e1 e2 grp p = p ++ norepCode rn ra k1 k2 grp p.length := by
  unfold rnodeEmitnorep norepCode
  cases rn with
  | atom => rfl
  | cat =>
    show e2 (e1 p) = _
    rw [h2, h1, List.length_append, List.append_assoc]
  | grp =>
    show e1 _ ++ _ = _
    rw [h1, List.length_append, List.append_assoc, List.append_assoc]
    rfl
  | alt =>
    have hleft : e1 (p ++ [{ ri := .fork }]) = p ++ { ri := .fork } :: k1 (p.length + 1) := by
      rw [h1, List.length_append, List.append_assoc]
      rfl
    have hdone : (p ++ { ri := .fork } :: k1 (p.length + 1)).length =
        p.length + 1 + (k1 (p.length + 1)).length := by
      rw [List.length_append, List.length_cons]
      omega
    simp only
    rw [hleft, hdone, List.append_assoc, List.cons_append, setDst_append]
    generalize p.length + 1 + (k1 (p.length + 1)).length = b at hdone
    -- the jump behind the first alternative is filled in last
    have hright : e2 (p ++ { ri := .fork, dst := (b + 1 : Nat) } ::
          (k1 (p.length + 1) ++ [{ ri := .jump }])) =
        p ++ { ri := .fork, dst := (b + 1 : Nat) } :: k1 (p.length + 1) ++
          { ri := .jump } :: k2 (b + 1) := by
      have hlen : (p ++ ({ ri := .fork, dst := (b + 1 : Nat) } : Rinst) ::
          (k1 (p.length + 1) ++ [{ ri := .jump }])).length = b + 1 := by
        rw [← hdone]
        simp only [List.length_append, List.length_cons, List.length_nil]
        omega
      rw [h2, hlen]
      simp only [List.append_assoc, List.cons_append, List.nil_append]
    have hjump : (p ++ ({ ri := .fork, dst := (b + 1 : Nat) } : Rinst) ::
        k1 (p.length + 1)).length = b := by
      rw [← hdone, List.length_append, List.length_append, List.length_cons, List.length_cons]
    have hend : (p ++ ({ ri := .fork, dst := (b + 1 : Nat) } : Rinst) :: k1 (p.length + 1) ++
        { ri := .jump } :: k2 (b + 1)).length = b + 1 + (k2 (b + 1)).length := by
      rw [List.length_append, hjump, List.length_cons]
      omega
    have hset := setDst_append (p ++ { ri := .fork, dst := (b + 1 : Nat) } :: k1 (p.length + 1))
      { ri := .jump } (k2 (b + 1)) (b + 1 + (k2 (b + 1)).length : Nat)
    rw [hjump] at hset
    rw [show ((b : Int) + 1) = (b + 1 : Nat) from rfl]
    show setDst (e2 _) b (e2 _).length = _
    rw [hright, hend, hset, List.append_assoc]
    rfl

/-- What `rnode_emit` adds to a program depends on its length only. -/
theorem rnodeEmit_eq (n : Rnode) (p : List Rinst) : rnodeEmit n p = p ++ code n p.length := by
  induction n generalizing p with
  | null => exact (List.append_nil p).symm
  | node rn ra c1 c2 mincnt maxcnt grp ih1 ih2 =>
    exact emitRep_eq (rnodeEmitnorep_eq ih1 ih2 rn ra grp) mincnt maxcnt p

theorem emitProgram_eq (n : Rnode) :
    emitProgram n = { ri := .mark, mark := 0 } :: (code n 1 ++
      [{ ri := .mark, mark := 1 }, { ri := .fin }]) := by
  rw [emitProgram, rnodeEmit_eq]
  rfl

/-! ## 3. Room for a program -/

/-- No repetition of the tree has a lower bound above its upper one. -/
def Rnode.Ordered : Rnode → Prop
  | .null => True
  | .node _ _ c1 c2 mincnt maxcnt _ => c1.Ordered ∧ c2.Ordered ∧ (maxcnt < 0 ∨ mincnt ≤ maxcnt)

instance Rnode.decidableOrdered : (n : Rnode) → Decidable n.Ordered
  | .null => isTrue trivial
  | .node _ _ c1 c2 mincnt maxcnt _ =>
    have := c1.decidableOrdered
    have := c2.decidableOrdered
    inferInstanceAs (Decidable (_ ∧ _ ∧ (maxcnt < 0 ∨ mincnt ≤ maxcnt)))

section
variable {k : Nat → List Rinst} {s : Nat}

end

/-- What `regcomp` returns is the program of the tree. -/
theorem regcomp_eq_some {pat : List UInt8} {flg : ReFlg} {re : Regex} {tree : Rnode}
    (hre : regcomp pat flg = some (some re)) (htree : regcompTree pat = some tree) :
    re = ⟨emitProgram tree, flg⟩ := by
  obtain ⟨n, -, h⟩ := Option.bind_eq_some_iff.mp hre
  obtain ⟨tree', htree', h⟩ := Option.bind_eq_some_iff.mp h
  cases htree.symm.trans htree'
  split at h
  · cases h
  · split at h
    · exact (Option.some.inj (Option.some.inj h)).symm
    · cases h

end Neatvi
