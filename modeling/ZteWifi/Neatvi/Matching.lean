import ZteWifi.Lib.Backtrack
import ZteWifi.Neatvi.Emit

/-!
# What a regular expression matches

`re_rec` runs the program of a tree on a machine that backtracks.  The saved states name the marks by
their number only, as a marked position is never overwritten while it can be needed again.  The
program ends with the first of the ways in which its tree leads through the string.
-/

open Backtrack

namespace Neatvi

/-! ## 1. Trees as patterns -/

/-- A position in the string, and the marks on the way there. -/
abbrev Found := Nat × List (Nat × Nat)

section
variable (o : List UInt8) (flg : ReFlg) (subcnt : Nat)

def atomAct (ra : Ratom) (x : Found) : Option Found := (ratomMatch ra o x.1 flg).map (·, x.2)

def markAct (mark : Nat) (x : Found) : Option Found :=
  some (x.1, if subcnt * 2 ≤ mark then x.2 else x.2 ++ [(mark, x.1)])

def norepPat (rn : Rn) (ra : Ratom) (p1 p2 : Pat Found) (grp : Nat) : Pat Found :=
  match rn with
  | .alt => .alt p1 p2
  | .cat => .seq p1 p2
  | .grp => .seq (.act (markAct subcnt (2 * grp))) (.seq p1 (.act (markAct subcnt (2 * grp + 1))))
  | .atom => .act (atomAct o flg ra)

def repPat (p : Pat Found) (mincnt : Nat) (maxcnt : Int) : Pat Found :=
  if mincnt = 0 ∧ maxcnt = 0 then .eps
  else if mincnt = 1 ∧ maxcnt = 1 then p
  else .seq (p.times mincnt) (if maxcnt < 0 then .star p else p.upTo (maxcnt - mincnt).toNat)

def Rnode.pat : Rnode → Pat Found
  | .null => .eps
  | .node rn ra c1 c2 mincnt maxcnt grp =>
    repPat (norepPat o flg subcnt rn ra c1.pat c2.pat grp) mincnt maxcnt

/-- The pattern of a whole expression, with the marks of the match itself. -/
def Rnode.wholePat (n : Rnode) : Pat Found :=
  .seq (.act (markAct subcnt 0)) (.seq (n.pat o flg subcnt) (.act (markAct subcnt 1)))

/-! ## 2. The program of a tree -/

def instrOf (ri : Rinst) : Instr Found :=
  match ri.ri with
  | .atom => .act (atomAct o flg ri.ra)
  | .mark => .act (markAct subcnt ri.mark)
  | .jump => .jump ri.dst.toNat
  | .fork => .fork ri.dst.toNat
  | .fin => .stop

/-- A program as the machine sees it. -/
def progOf (p : List Rinst) (i : Nat) : Option (Instr Found) := p[i]?.map (instrOf o flg subcnt)

end

section
variable {o : List UInt8} {flg : ReFlg} {subcnt : Nat} {p : List Rinst}

theorem progOf_holds {a : Nat} {ri : Rinst} {c : List Rinst} (h : HoldsAt a (ri :: c) p) :
    progOf o flg subcnt p a = some (instrOf o flg subcnt ri) := by
  rw [progOf, h.getElem?]
  rfl

theorem forksCode_length (k : Nat → List Rinst) (stop stop' : Int) (n a : Nat) :
    (forksCode k stop n a).length = (forksCode k stop' n a).length := by
  induction n generalizing a with
  | zero => rfl
  | succ n ih =>
    rw [forksCode, forksCode, List.length_cons, List.length_cons, List.length_append,
      List.length_append, ih]

section
variable {k : Nat → List Rinst} {q : Pat Found}
  (hk : ∀ a, HoldsAt a (k a) p → Placed (progOf o flg subcnt p) q a (a + (k a).length))
include hk

theorem timesCode_placed (n : Nat) {a : Nat} (h : HoldsAt a (timesCode k n a) p) :
    Placed (progOf o flg subcnt p) (q.times n) a (a + (timesCode k n a).length) := by
  induction n with
  | zero => exact .eps
  | succ n ih =>
    rw [timesCode] at h
    rw [timesCode, List.length_append, ← Nat.add_assoc]
    exact .seq (ih h.left) (hk _ h.right)

theorem forksCode_placed {stop : Nat} (n : Nat) {a : Nat}
    (h : HoldsAt a (forksCode k stop n a) p)
    (hstop : stop = a + (forksCode k stop n a).length) :
    Placed (progOf o flg subcnt p) (q.upTo n) a stop := by
  induction n generalizing a with
  | zero =>
    rw [hstop]
    exact .eps
  | succ n ih =>
    rw [forksCode] at h hstop
    rw [List.length_cons, List.length_append] at hstop
    refine .maybe (progOf_holds h) (.seq (hk _ h.tail.left) (ih h.tail.right ?_))
    omega

theorem starCode_placed {a : Nat} (h : HoldsAt a (starCode k a) p) :
    Placed (progOf o flg subcnt p) (.star q) a (a + (starCode k a).length) := by
  rw [starCode] at h
  rw [starCode, List.length_cons, List.length_append, List.length_singleton]
  have hjump : progOf o flg subcnt p (a + 1 + (k (a + 1)).length) = some (.jump a) :=
    progOf_holds h.tail.right
  have hstar := Placed.star (progOf_holds h) (hk _ h.tail.left) hjump
  rw [show a + ((k (a + 1)).length + 1 + 1) = a + 1 + (k (a + 1)).length + 1 by omega]
  exact hstar

theorem repCode_placed {mincnt : Nat} {maxcnt : Int} {a : Nat}
    (h : HoldsAt a (repCode k mincnt maxcnt a) p) :
    Placed (progOf o flg subcnt p) (repPat q mincnt maxcnt) a
      (a + (repCode k mincnt maxcnt a).length) := by
  unfold repCode at h ⊢
  unfold repPat
  split
  · exact .eps
  split
  · next hrep hone =>
    rw [if_neg hrep, if_pos hone] at h
    exact hk a h
  next hrep hone =>
  rw [if_neg hrep, if_neg hone] at h
  simp only at h ⊢
  split
  · next hneg =>
    rw [if_pos hneg] at h
    rw [List.length_append, ← Nat.add_assoc]
    exact .seq (timesCode_placed hk _ h.left) (starCode_placed hk h.right)
  · next hneg =>
    rw [if_neg hneg] at h
    rw [List.length_append, ← Nat.add_assoc]
    refine .seq (timesCode_placed hk _ h.left) ?_
    replace h := h.right
    generalize a + (timesCode k mincnt a).length = b at h ⊢
    have hlen := forksCode_length k 0 (b + (forksCode k 0 (maxcnt - mincnt).toNat b).length : Nat)
      (maxcnt - mincnt).toNat b
    have hforks := forksCode_placed hk _ h (congrArg (b + ·) hlen)
    rw [hlen] at hforks
    exact hforks

end

theorem norepCode_placed {k1 k2 : Nat → List Rinst} {p1 p2 : Pat Found}
    (h1 : ∀ a, HoldsAt a (k1 a) p → Placed (progOf o flg subcnt p) p1 a (a + (k1 a).length))
    (h2 : ∀ a, HoldsAt a (k2 a) p → Placed (progOf o flg subcnt p) p2 a (a + (k2 a).length))
    {rn : Rn} {ra : Ratom} {grp a : Nat} (h : HoldsAt a (norepCode rn ra k1 k2 grp a) p) :
    Placed (progOf o flg subcnt p) (norepPat o flg subcnt rn ra p1 p2 grp) a
      (a + (norepCode rn ra k1 k2 grp a).length) := by
  unfold norepCode at h ⊢
  unfold norepPat
  cases rn with
  | atom => exact .act (progOf_holds h)
  | cat =>
    simp only at h ⊢
    rw [List.length_append, ← Nat.add_assoc]
    exact .seq (h1 _ h.left) (h2 _ h.right)
  | grp =>
    simp only at h ⊢
    have hinner := h1 _ h.tail.left
    have hlast : Placed (progOf o flg subcnt p) (.act (markAct subcnt (2 * grp + 1)))
        (a + 1 + (k1 (a + 1)).length) (a + 1 + (k1 (a + 1)).length + 1) :=
      .act (progOf_holds h.tail.right)
    have hgrp := Placed.seq (.act (progOf_holds h)) (.seq hinner hlast)
    rw [List.length_cons, List.length_append, List.length_singleton,
      show a + ((k1 (a + 1)).length + 1 + 1) = a + 1 + (k1 (a + 1)).length + 1 by omega]
    exact hgrp
  | alt =>
    simp only at h ⊢
    have hleft := h1 _ h.tail.left
    have hright := h2 _ h.tail.right.tail
    have halt := Placed.alt (progOf_holds h) hleft (progOf_holds h.tail.right) hright
    rw [List.length_cons, List.length_append, List.length_cons]
    generalize (k1 (a + 1)).length = l at halt ⊢
    rw [show a + (l + ((k2 (a + 1 + l + 1)).length + 1) + 1) =
      a + 1 + l + 1 + (k2 (a + 1 + l + 1)).length by omega]
    exact halt

theorem code_placed (n : Rnode) {a : Nat} (h : HoldsAt a (code n a) p) :
    Placed (progOf o flg subcnt p) (n.pat o flg subcnt) a (a + (code n a).length) := by
  induction n generalizing a with
  | null => exact .eps
  | node rn ra c1 c2 mincnt maxcnt grp ih1 ih2 =>
    exact repCode_placed (fun a => norepCode_placed (fun a => ih1) (fun a => ih2)) h

end

/-- The program that `regcomp` emits is that of the whole expression. -/
theorem emitProgram_placed (o : List UInt8) (flg : ReFlg) (subcnt : Nat) (n : Rnode) :
    ∃ b, Placed (progOf o flg subcnt (emitProgram n)) (n.wholePat o flg subcnt) 0 b ∧
      progOf o flg subcnt (emitProgram n) b = some .stop := by
  have h : HoldsAt 0 (({ ri := .mark, mark := 0 } : Rinst) :: (code n 1 ++
      [{ ri := .mark, mark := 1 }, { ri := .fin }])) (emitProgram n) :=
    ⟨[], [], by rw [emitProgram_eq, List.append_nil, List.nil_append], rfl⟩
  refine ⟨0 + 1 + (code n 1).length + 1, .seq (.act (progOf_holds h)) (.seq
    (code_placed n h.tail.left) (.act (progOf_holds h.tail.right))), ?_⟩
  exact progOf_holds h.tail.right.tail

/-! ## 3. The matching state -/

/-- The saved states stand for those of the machine.  Each keeps the marks up to its own, and those
before it keep no more. -/
def SavedAs (mark : List (Nat × Nat)) :
    Nat → List (Nat × Nat × Nat) → List (Nat × Found) → Prop
  | _, [], [] => True
  | top, (s, markPos, pc) :: saved, (pc', s', marks) :: saved' =>
    pc = pc' ∧ s = s' ∧ markPos ≤ top ∧ mark.take markPos = marks ∧
      SavedAs mark markPos saved saved'
  | _, _, _ => False

/-- A matching state stands for a configuration of the machine. -/
structure Represents (rs : Rstate) (c : Cfg Found) : Prop where
  pc : rs.pc = c.pc
  s : rs.s = c.st.1
  markPos : rs.markPos ≤ rs.mark.length
  marks : rs.mark.take rs.markPos = c.st.2
  saved : SavedAs rs.mark rs.markPos rs.saved c.saved

theorem SavedAs.mono {mark : List (Nat × Nat)} {top top' : Nat} {saved : List (Nat × Nat × Nat)}
    {saved' : List (Nat × Found)} (h : SavedAs mark top saved saved') (hle : top ≤ top') :
    SavedAs mark top' saved saved' := by
  cases saved with
  | nil =>
    cases saved' with
    | nil => trivial
    | cons => exact h
  | cons sv saved =>
    cases saved' with
    | nil => exact h
    | cons sv' saved' =>
      obtain ⟨hpc, hs, htop, hmarks, hrest⟩ := h
      exact ⟨hpc, hs, Nat.le_trans htop hle, hmarks, hrest⟩

/-- Marks that agree up to the last one that is kept. -/
theorem SavedAs.congr {mark mark' : List (Nat × Nat)} {top : Nat}
    {saved : List (Nat × Nat × Nat)} {saved' : List (Nat × Found)}
    (h : SavedAs mark top saved saved') (heq : mark'.take top = mark.take top) :
    SavedAs mark' top saved saved' := by
  induction saved generalizing top saved' with
  | nil =>
    cases saved' with
    | nil => trivial
    | cons => exact h
  | cons sv saved ih =>
    cases saved' with
    | nil => exact h
    | cons sv' saved' =>
      obtain ⟨hpc, hs, htop, hmarks, hrest⟩ := h
      have hpart : mark'.take sv.2.1 = mark.take sv.2.1 := by
        rw [← Nat.min_eq_left htop, ← List.take_take, ← List.take_take, heq]
      exact ⟨hpc, hs, htop, hpart.trans hmarks, ih hrest hpart⟩

section
variable {o : List UInt8} {flg : ReFlg} {subcnt : Nat} {re : Regex}

theorem rstatePop_represents {rs : Rstate} {saved : List (Nat × Found)}
    (hlen : rs.markPos ≤ rs.mark.length) (h : SavedAs rs.mark rs.markPos rs.saved saved) :
    match resume saved with
    | some c => ∃ rs', rstatePop rs = some rs' ∧ Represents rs' c
    | none => rstatePop rs = none := by
  unfold rstatePop
  cases hsv : rs.saved with
  | nil =>
    rw [hsv] at h
    cases saved with
    | nil => rfl
    | cons => exact h.elim
  | cons sv rest =>
    rw [hsv] at h
    cases saved with
    | nil => exact h.elim
    | cons sv' saved' =>
      obtain ⟨hpc, hs, htop, hmarks, hrest⟩ := h
      exact ⟨_, rfl, hpc, hs, Nat.le_trans htop hlen, hmarks, hrest⟩

theorem rstateMark_represents {rs : Rstate} {c : Cfg Found} (h : Represents rs c) (mark : Nat) :
    Represents { rstateMark rs subcnt mark with pc := rs.pc + 1 }
      ⟨c.pc + 1, (c.st.1, if subcnt * 2 ≤ mark then c.st.2 else c.st.2 ++ [(mark, c.st.1)]),
        c.saved⟩ := by
  unfold rstateMark
  split
  · exact ⟨congrArg (· + 1) h.pc, h.s, h.markPos, h.marks, h.saved⟩
  · have hlen : (rs.mark.take rs.markPos).length = rs.markPos :=
      List.length_take_of_le h.markPos
    have hkept : (rs.mark.take rs.markPos ++
        (mark, rs.s) :: rs.mark.drop (rs.markPos + 1)).take rs.markPos =
        rs.mark.take rs.markPos := by
      rw [List.take_append_of_le_length (Nat.le_of_eq hlen.symm), List.take_take, Nat.min_self]
    refine ⟨congrArg (· + 1) h.pc, h.s, ?_, ?_, (h.saved.congr hkept).mono (Nat.le_succ _)⟩
    · show rs.markPos + 1 ≤ _
      rw [List.length_append, hlen, List.length_cons]
      omega
    · show List.take (rs.markPos + 1) _ = _
      rw [List.take_append, hlen, Nat.add_sub_cancel_left, List.take_take,
        Nat.min_eq_right (Nat.le_succ _), h.marks, ← h.s]
      rfl

/-- A round of `re_rec` is a step of the machine. -/
theorem recStep_represents {rs : Rstate} {c : Cfg Found} (h : Represents rs c)
    (hstop : progOf o flg subcnt re.p c.pc ≠ some .stop) :
    match step (progOf o flg subcnt re.p) c with
    | some c' => ∃ r rs', recStep re o flg subcnt rs = (r, some rs') ∧ Represents rs' c'
    | none => recStep re o flg subcnt rs = (1, none) := by
  have hpop := rstatePop_represents h.markPos h.saved
  have hback : match resume c.saved with
      | some c' => ∃ r rs', (1, rstatePop rs) = (r, some rs') ∧ Represents rs' c'
      | none => (1, rstatePop rs) = (1, none) := by
    cases hres : resume c.saved with
    | none =>
      rw [hres] at hpop
      exact congrArg _ hpop
    | some c' =>
      rw [hres] at hpop
      obtain ⟨rs', heq, hrep⟩ := hpop
      exact ⟨1, rs', congrArg _ heq, hrep⟩
  unfold step recStep
  unfold progOf at hstop ⊢
  rw [h.pc]
  cases hri : re.p[c.pc]? with
  | none => exact hback
  | some ri =>
    rw [hri] at hstop
    simp only [Option.map_some] at hstop ⊢
    unfold instrOf at hstop ⊢
    cases hk : ri.ri with
    | atom =>
      simp only [atomAct, h.s]
      cases ratomMatch ri.ra o c.st.1 flg with
      | none => exact hback
      | some s => exact ⟨0, _, rfl, rfl, rfl, h.markPos, h.marks, h.saved⟩
    | mark =>
      have hmark := @rstateMark_represents subcnt rs c h ri.mark
      rw [h.pc] at hmark
      exact ⟨0, _, rfl, hmark⟩
    | jump => exact ⟨0, _, rfl, rfl, h.s, h.markPos, h.marks, h.saved⟩
    | fork =>
      refine ⟨0, _, rfl, rfl, h.s, h.markPos, h.marks, ?_⟩
      exact ⟨rfl, h.s, Nat.le_refl _, h.marks, h.saved⟩
    | fin =>
      rw [hk] at hstop
      exact absurd rfl hstop

theorem recStep_stop {rs : Rstate} {c : Cfg Found} (h : Represents rs c)
    (hstop : progOf o flg subcnt re.p c.pc = some .stop) :
    recStep re o flg subcnt rs = (0, none) := by
  obtain ⟨ri, hri, hinstr⟩ := Option.map_eq_some_iff.mp hstop
  unfold recStep
  rw [h.pc, hri]
  unfold instrOf at hinstr
  cases hk : ri.ri with
  | fin => simp only [hk]
  | atom =>
    rw [hk] at hinstr
    cases hinstr
  | mark =>
    rw [hk] at hinstr
    cases hinstr
  | jump =>
    rw [hk] at hinstr
    cases hinstr
  | fork =>
    rw [hk] at hinstr
    cases hinstr

/-- The result of `re_rec` where the machine has got to a configuration, or has given up. -/
def ResultOf (t : Option (Cfg Found)) (r : Option (Nat × Rstate)) : Prop :=
  match t with
  | some c => ∃ rs, r = some (0, rs) ∧ Represents rs c
  | none => ∃ rs, r = some (1, rs)

/-- From every state for the configuration `re_rec` with enough rounds has the result. -/
def Returns (re : Regex) (o : List UInt8) (flg : ReFlg) (subcnt : Nat) (c : Cfg Found)
    (t : Option (Cfg Found)) : Prop :=
  ∃ n, ∀ rs, Represents rs c → ∀ fuel, n ≤ fuel → ResultOf t (reRec re o flg subcnt fuel rs)

theorem Returns.step {c c' : Cfg Found} {t : Option (Cfg Found)}
    (hstep : ∀ rs, Represents rs c →
      ∃ r rs', recStep re o flg subcnt rs = (r, some rs') ∧ Represents rs' c')
    (h : Returns re o flg subcnt c' t) : Returns re o flg subcnt c t := by
  obtain ⟨n, hn⟩ := h
  refine ⟨n + 1, fun rs hrs fuel hfuel => ?_⟩
  obtain ⟨fuel, rfl⟩ := Nat.exists_eq_succ_of_ne_zero (show fuel ≠ 0 by omega)
  obtain ⟨r, rs', hrec, hrs'⟩ := hstep rs hrs
  rw [reRec, hrec]
  exact hn rs' hrs' fuel (by omega)

theorem Returns.last {c : Cfg Found} {r : Nat} {t : Option (Cfg Found)}
    (hstep : ∀ rs, Represents rs c → recStep re o flg subcnt rs = (r, none))
    (h : ∀ rs, Represents rs c → ResultOf t (some (r, rs))) : Returns re o flg subcnt c t := by
  refine ⟨1, fun rs hrs fuel hfuel => ?_⟩
  obtain ⟨fuel, rfl⟩ := Nat.exists_eq_succ_of_ne_zero (show fuel ≠ 0 by omega)
  rw [reRec, hstep rs hrs]
  exact h rs hrs

theorem reRec_moves {s t : Option (Cfg Found)} (hmoves : Moves (progOf o flg subcnt re.p) s t)
    (hend : ∀ c, t = some c → progOf o flg subcnt re.p c.pc = some .stop) {c : Cfg Found}
    (hs : s = some c) : Returns re o flg subcnt c t := by
  induction hmoves using Relation.ReflTransGen.head_induction_on generalizing c with
  | refl =>
    rw [hs]
    exact .last (fun rs h => recStep_stop h (hend c hs)) fun rs h => ⟨rs, rfl, h⟩
  | @head s₁ s₂ hfirst hrest ih =>
    obtain ⟨c₁, hc₁, hstep⟩ := hfirst
    obtain rfl : c₁ = c := Option.some.inj (hc₁.symm.trans hs)
    by_cases hstop : progOf o flg subcnt re.p c₁.pc = some .stop
    · -- at its end the machine stays where it is
      apply ih
      rw [hstep, step, hstop]
    have hround (rs : Rstate) (h : Represents rs c₁) := recStep_represents h hstop
    rw [← hstep] at hround
    cases s₂ with
    | some c' => exact .step hround (ih rfl)
    | none =>
      have hnone : t = none := by
        rcases Relation.ReflTransGen.cases_head hrest with heq | ⟨_, ⟨c', hc', -⟩, -⟩
        · exact heq.symm
        · cases hc'
      rw [hnone]
      exact .last hround fun rs _ => ⟨rs, rfl⟩

/-- An attempt of `re_rec` that ends in a state, or fails. -/
def Attempt (z : Option Found) (r : Option (Nat × Rstate)) : Prop :=
  match z with
  | some z => ∃ rs, r = some (0, rs) ∧ rs.s = z.1 ∧ rs.mark.take rs.markPos = z.2
  | none => ∃ rs, r = some (1, rs)

/-- An attempt at a position ends, with the first of the ways in which the tree leads on from
there. -/
theorem reRec_first {n : Rnode} (hp : re.p = emitProgram n) {s : Nat} {zs : List Found}
    (ho : Outcomes (n.wholePat o flg subcnt) [(s, [])] zs) :
    ∃ m, ∀ mark fuel, m ≤ fuel →
      Attempt zs.head? (reRec re o flg subcnt fuel ⟨s, 0, mark, 0, []⟩) := by
  obtain ⟨b, hplaced, hstop⟩ := emitProgram_placed o flg subcnt n
  rw [← hp] at hplaced hstop
  have hends := ho.ends hplaced hstop
  have hrep (mark : List (Nat × Nat)) :
      Represents ⟨s, 0, mark, 0, []⟩ ⟨0, (s, []), []⟩ :=
    ⟨rfl, rfl, Nat.zero_le _, rfl, trivial⟩
  cases hz : zs.head? with
  | none =>
    rw [hz] at hends
    obtain ⟨m, hm⟩ := reRec_moves hends nofun rfl
    exact ⟨m, fun mark fuel hfuel => hm _ (hrep mark) fuel hfuel⟩
  | some z =>
    rw [hz] at hends
    obtain ⟨b', saved, hstop', hmoves⟩ := hends
    obtain ⟨m, hm⟩ := reRec_moves hmoves (by
      intro c hc
      rw [← Option.some.inj hc]
      exact hstop') rfl
    refine ⟨m, fun mark fuel hfuel => ?_⟩
    obtain ⟨rs, hrec, hrep'⟩ := hm _ (hrep mark) fuel hfuel
    exact ⟨rs, hrec, hrep'.s, hrep'.marks⟩

end

end Neatvi
