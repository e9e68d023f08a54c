import Mathlib.Data.Nat.Bitwise
import ZteWifi.Neatvi.Searching

/-!
# The groups of a match

What `regexec` reports of a match are ranges of the string: a group that takes part lies within the
string, and the whole match spans from the start that was found to where the expression has led.
-/

open Backtrack

namespace Neatvi

/-! ## 1. Positions in the string -/

/-- A literal that is compared without its case has plain characters only. -/
def Ratom.plain (flg : ReFlg) (ra : Ratom) : Bool :=
  !flg.icase || ra.ra ≠ .chr || ra.s.all fun c => 0 < c && c < 0x80

def Rnode.plain (flg : ReFlg) : Rnode → Bool
  | .null => true
  | .node _ ra c1 c2 _ _ _ => ra.plain flg && c1.plain flg && c2.plain flg

section
variable {o : List UInt8} {flg : ReFlg} {subcnt : Nat}

theorem ascii_high {c : UInt8} (h : c < 0x80) : ~~~ c &&& 0xC0 ≠ 0 := by
  have hall : ∀ c : Fin 128, ~~~ (UInt8.ofNat c) &&& 0xC0 ≠ 0 := by decide
  have hc := hall ⟨c.toNat, UInt8.lt_iff_toNat_lt.mp h⟩
  rwa [UInt8.ofNat_toNat] at hc

theorem ucDec_ascii {s : List UInt8} (h : s.getD 0 0 < 0x80) : ucDec s = (s.getD 0 0).toNat := by
  unfold ucDec
  simp only
  rw [if_pos (.inl (ascii_high h))]

theorem ucLen_ascii {s : List UInt8} (h : s.getD 0 0 < 0x80) (hpos : 0 < s.getD 0 0) :
    ucLen s = 1 := by
  unfold ucLen
  simp only
  rw [if_pos (.inl (ascii_high h)), if_pos hpos]

theorem matchFolded_le {ra r : List UInt8} (hra : ∀ c ∈ ra, 0 < c ∧ c < 0x80) {fuel pos pos' : Nat}
    (hpos : pos ≤ r.length) (h : matchFolded ra r flg fuel pos = some pos') : pos' ≤ r.length := by
  induction fuel generalizing pos with
  | zero =>
    cases h
    exact hpos
  | succ fuel ih =>
    rw [matchFolded] at h
    split at h
    · next hne =>
      split at h
      · next hfold =>
        have hlt := getD_ne_zero hne
        have hc := hra _ (List.getElem_mem hlt)
        rw [← List.getD_eq_getElem _ 0] at hc
        have hdrop : (ra.drop pos).getD 0 0 = ra.getD pos 0 := getD_drop ra pos 0
        rw [← hdrop] at hc
        rw [ucLen_ascii hc.2 hc.1] at h
        refine ih ?_ h
        -- the text has a character there, as the literal has
        have htext : r.getD pos 0 ≠ 0 := by
          intro hzero
          have hzero' : (r.drop pos).getD 0 0 = 0 := (getD_drop r pos 0).trans hzero
          rw [ucDec_eq_zero hzero', foldCase_zero, ucDec_ascii hc.2] at hfold
          have hnat := foldCase_eq_zero hfold
          exact absurd hnat (Nat.ne_of_gt (UInt8.lt_iff_toNat_lt.mp hc.1))
        exact getD_ne_zero htext
      · cases h
    · cases h
      exact hpos

theorem ratomMatch_le {ra : Ratom} (hra : ra.plain flg = true) {s s' : Nat} (hs : s ≤ o.length)
    (h : ratomMatch ra o s flg = some s') : s' ≤ o.length := by
  by_cases hanchor : ra.ra.anchor = true
  · rw [ratomMatch_anchor hanchor h]
    exact hs
  have hlen : (o.drop s).length = o.length - s := List.length_drop
  have hchar := ucLen_le (o.drop s)
  unfold ratomMatch at h
  cases hk : ra.ra with
  | chr =>
    simp only [hk] at h
    split at h
    · next hicase =>
      obtain ⟨n, hn, rfl⟩ := Option.map_eq_some_iff.mp h
      have hplain : ∀ c ∈ ra.s, 0 < c ∧ c < 0x80 := by
        unfold Ratom.plain at hra
        rw [hicase, hk] at hra
        simp only [Bool.not_true, ne_eq, not_true_eq_false, decide_false, Bool.or_self,
          Bool.false_or, List.all_eq_true, Bool.and_eq_true, decide_eq_true_eq] at hra
        exact hra
      have := matchFolded_le hplain (Nat.zero_le _) hn
      omega
    · split at h
      · next hpre =>
        cases h
        have := (List.isPrefixOf_iff_prefix.mp hpre).length_le
        omega
      · cases h
  | any =>
    simp only [hk] at h
    split at h
    · cases h
    · cases h
      omega
  | brk =>
    simp only [hk] at h
    split at h
    · cases h
    · split at h
      · cases h
        omega
      · cases h
  | _ => exact absurd (by rw [hk]; rfl) hanchor

theorem keeps_rep {I : Found → Prop} {p : Pat Found} (hp : Keeps I p) (mincnt : Nat)
    (maxcnt : Int) : Keeps I (repPat p mincnt maxcnt) := by
  unfold repPat
  split
  · exact .eps
  split
  · exact hp
  apply Keeps.seq (hp.times mincnt)
  split
  · exact hp.star
  · exact hp.upTo _

/-- The position stays within the string. -/
theorem Rnode.keeps_le {n : Rnode} (h : n.plain flg = true) :
    Keeps (fun x => x.1 ≤ o.length) (n.pat o flg subcnt) := by
  induction n with
  | null => exact .eps
  | node rn ra c1 c2 mincnt maxcnt grp ih1 ih2 =>
    rw [Rnode.plain, Bool.and_eq_true, Bool.and_eq_true] at h
    obtain ⟨⟨hra, h1⟩, h2⟩ := h
    have hmark (mark : Nat) :
        Keeps (fun x : Found => x.1 ≤ o.length) (.act (markAct subcnt mark)) :=
      .act fun x y hxy hx => by
        cases hxy
        exact hx
    refine keeps_rep ?_ mincnt maxcnt
    cases rn with
    | atom =>
      refine .act fun x y hxy hx => ?_
      obtain ⟨s', hs', rfl⟩ := Option.map_eq_some_iff.mp hxy
      exact ratomMatch_le hra hx hs'
    | cat => exact (ih1 h1).seq (ih2 h2)
    | alt => exact (ih1 h1).alt (ih2 h2)
    | grp => exact (hmark _).seq ((ih1 h1).seq (hmark _))

/-! ## 2. Groups -/

/-- The groups as they are after the marks. -/
def subOf (sub : List Regmatch) (x : Found) : List Regmatch := x.2.foldl setMatch sub

/-- What the group is, after the marks and at the position. -/
def GroupIs (sub : List Regmatch) (g : Nat) (q : Nat → Regmatch → Prop) (x : Found) : Prop :=
  ∀ r, (subOf sub x)[g]? = some r → q x.1 r

/-- The group starts at the position at most. -/
def Opened (pos : Nat) (r : Regmatch) : Prop := 0 ≤ r.1 ∧ r.1 ≤ pos

/-- The group takes no part, or is a range up to the position. -/
def Inside (pos : Nat) (r : Regmatch) : Prop := r = (-1, -1) ∨ 0 ≤ r.1 ∧ r.1 ≤ r.2 ∧ r.2 ≤ pos

theorem subOf_mark (sub : List Regmatch) (s : Nat) (marks : List (Nat × Nat)) (mark : Nat) :
    subOf sub (s, marks ++ [(mark, s)]) = setMatch (subOf sub (s, marks)) (mark, s) := by
  unfold subOf
  rw [List.foldl_append]
  rfl

theorem setMatch_even (sub : List Regmatch) (g s : Nat) :
    setMatch sub (2 * g, s) = sub.modify g fun r => ((s : Int), r.2) := by
  unfold setMatch
  have hshift : (2 * g) >>> 1 = g := by omega
  have hand : ¬ ((2 * g) &&& 1 ≠ 0) := by
    rw [Nat.and_one_is_mod]
    omega
  simp only [hshift, if_neg hand]

theorem setMatch_odd (sub : List Regmatch) (g s : Nat) :
    setMatch sub (2 * g + 1, s) = sub.modify g fun r => (r.1, (s : Int)) := by
  unfold setMatch
  have hshift : (2 * g + 1) >>> 1 = g := by omega
  have hand : (2 * g + 1) &&& 1 ≠ 0 := by
    rw [Nat.and_one_is_mod]
    omega
  simp only [hshift, if_pos hand]

/-- Marks are ignored where there is no room for their group. -/
theorem markAct_ignored {x y : Found} {mark : Nat} (h : markAct subcnt mark x = some y)
    (hmark : subcnt * 2 ≤ mark) : y = x := by
  unfold markAct at h
  rw [if_pos hmark] at h
  exact (Option.some.inj h).symm

theorem markAct_subOf (sub : List Regmatch) {x y : Found} {mark : Nat}
    (h : markAct subcnt mark x = some y) (hmark : ¬ subcnt * 2 ≤ mark) :
    y.1 = x.1 ∧ subOf sub y = setMatch (subOf sub x) (mark, x.1) := by
  unfold markAct at h
  rw [if_neg hmark] at h
  cases h
  exact ⟨rfl, subOf_mark sub x.1 x.2 mark⟩

variable {sub : List Regmatch} {g : Nat} {q : Nat → Regmatch → Prop}

theorem GroupIs.atom (hq : ∀ s s' r, s ≤ s' → q s r → q s' r) (ra : Ratom) :
    Keeps (GroupIs sub g q) (.act (atomAct o flg ra)) := by
  refine .act fun x y hxy hx => ?_
  obtain ⟨s', hs', rfl⟩ := Option.map_eq_some_iff.mp hxy
  exact fun r hr => hq _ _ r (ratomMatch_progress hs').1 (hx r hr)

/-- A mark leaves the other groups alone. -/
theorem GroupIs.mark {mark : Nat} (hmark : mark / 2 ≠ g) :
    Keeps (GroupIs sub g q) (.act (markAct subcnt mark)) := by
  refine .act fun x y hxy hx => ?_
  by_cases hig : subcnt * 2 ≤ mark
  · rw [markAct_ignored hxy hig]
    exact hx
  · obtain ⟨hpos, hsub⟩ := markAct_subOf sub hxy hig
    intro r hr
    rw [hsub, setMatch, List.getElem?_modify] at hr
    obtain ⟨r', hr', rfl⟩ := Option.map_eq_some_iff.mp hr
    have hother : ¬ mark >>> 1 = g := by rwa [Nat.shiftRight_one]
    rw [if_neg hother, hpos]
    exact hx r' hr'

/-- The start of the group is set. -/
theorem opened_of_mark {x y : Found} (h : markAct subcnt (2 * g) x = some y)
    (hroom : ¬ subcnt * 2 ≤ 2 * g) : GroupIs sub g (fun _ r => r.1 = x.1) y := by
  obtain ⟨-, hsub⟩ := markAct_subOf sub h hroom
  intro r hr
  rw [hsub, setMatch_even, List.getElem?_modify] at hr
  obtain ⟨r', -, rfl⟩ := Option.map_eq_some_iff.mp hr
  rw [if_pos rfl]

/-- The end of the group is set, and its start stays. -/
theorem closed_of_mark {x y : Found} (h : markAct subcnt (2 * g + 1) x = some y)
    (hroom : ¬ subcnt * 2 ≤ 2 * g + 1) (hx : GroupIs sub g q x) :
    GroupIs sub g (fun pos r => r.2 = pos ∧ ∃ r', r.1 = r'.1 ∧ q pos r') y := by
  obtain ⟨hpos, hsub⟩ := markAct_subOf sub h hroom
  intro r hr
  rw [hsub, setMatch_odd, List.getElem?_modify] at hr
  obtain ⟨r', hr', rfl⟩ := Option.map_eq_some_iff.mp hr
  rw [hpos, if_pos rfl]
  exact ⟨rfl, r', rfl, hx r' hr'⟩

theorem Opened.mono (s s' : Nat) (r : Regmatch) (h : s ≤ s') (hr : Opened s r) : Opened s' r := by
  unfold Opened at hr ⊢
  omega

theorem Inside.mono (s s' : Nat) (r : Regmatch) (h : s ≤ s') (hr : Inside s r) : Inside s' r := by
  rcases hr with hr | hr
  · exact .inl hr
  · exact .inr ⟨hr.1, hr.2.1, by omega⟩

/-- Around what keeps its start a group is a range behind its end. -/
theorem GroupIs.grp {p : Pat Found} (hopened : Keeps (GroupIs sub g Opened) p)
    (hinside : Keeps (GroupIs sub g Inside) p) (g' : Nat) :
    Keeps (GroupIs sub g Opened) (.seq (.act (markAct subcnt (2 * g')))
        (.seq p (.act (markAct subcnt (2 * g' + 1))))) ∧
      Keeps (GroupIs sub g Inside) (.seq (.act (markAct subcnt (2 * g')))
        (.seq p (.act (markAct subcnt (2 * g' + 1))))) := by
  by_cases hg : g' = g
  · subst hg
    have hcases {x y : Found} (hlead : Leads (.seq (.act (markAct subcnt (2 * g')))
        (.seq p (.act (markAct subcnt (2 * g' + 1))))) x y) :
        Leads p x y ∨ GroupIs sub g' (fun pos r => Opened pos r ∧ Inside pos r) y := by
      cases hlead with
      | @seq _ _ _ x₁ _ h₁ h₂ =>
        cases h₂ with
        | @seq _ _ _ x₂ _ h₂ h₃ =>
          cases h₁ with
          | act h₁ =>
            cases h₃ with
            | act h₃ =>
              by_cases hroom : subcnt * 2 ≤ 2 * g'
              · rw [markAct_ignored h₁ hroom] at h₂
                rw [markAct_ignored h₃ (by omega)]
                exact .inl h₂
              · right
                have hstart : GroupIs sub g' Opened x₁ := by
                  intro r hr
                  have hpos := (markAct_subOf sub h₁ hroom).1
                  have := opened_of_mark h₁ hroom r hr
                  unfold Opened
                  omega
                intro r hr
                obtain ⟨hend, r', hr', hopen⟩ :=
                  closed_of_mark h₃ (by omega) (hopened _ _ h₂ hstart) r hr
                unfold Opened at hopen
                exact ⟨⟨by omega, by omega⟩, .inr ⟨by omega, by omega, by omega⟩⟩
    constructor
    · intro x y hlead hx
      rcases hcases hlead with h | h
      · exact hopened x y h hx
      · exact fun r hr => (h r hr).1
    · intro x y hlead hx
      rcases hcases hlead with h | h
      · exact hinside x y h hx
      · exact fun r hr => (h r hr).2
  · have h1 : (2 * g') / 2 ≠ g := by omega
    have h2 : (2 * g' + 1) / 2 ≠ g := by omega
    exact ⟨(GroupIs.mark h1).seq (hopened.seq (GroupIs.mark h2)),
      (GroupIs.mark h1).seq (hinside.seq (GroupIs.mark h2))⟩

theorem Rnode.keeps_groups (n : Rnode) :
    Keeps (GroupIs sub g Opened) (n.pat o flg subcnt) ∧
      Keeps (GroupIs sub g Inside) (n.pat o flg subcnt) := by
  induction n with
  | null => exact ⟨.eps, .eps⟩
  | node rn ra c1 c2 mincnt maxcnt grp ih1 ih2 =>
    have hnorep : Keeps (GroupIs sub g Opened)
          (norepPat o flg subcnt rn ra (c1.pat o flg subcnt) (c2.pat o flg subcnt) grp) ∧
        Keeps (GroupIs sub g Inside)
          (norepPat o flg subcnt rn ra (c1.pat o flg subcnt) (c2.pat o flg subcnt) grp) := by
      cases rn with
      | atom => exact ⟨.atom Opened.mono ra, .atom Inside.mono ra⟩
      | cat => exact ⟨ih1.1.seq ih2.1, ih1.2.seq ih2.2⟩
      | alt => exact ⟨ih1.1.alt ih2.1, ih1.2.alt ih2.2⟩
      | grp => exact GroupIs.grp ih1.1 ih1.2 grp
    exact ⟨keeps_rep hnorep.1 mincnt maxcnt, keeps_rep hnorep.2 mincnt maxcnt⟩

/-! ## 3. The match itself -/

/-- The groups are numbered from `k` on. -/
def Rnode.NumberedFrom (k : Nat) : Rnode → Prop
  | .null => True
  | .node rn _ c1 c2 _ _ grp => (rn = .grp → k ≤ grp) ∧ c1.NumberedFrom k ∧ c2.NumberedFrom k

theorem Rnode.NumberedFrom.mono {n : Rnode} {k k' : Nat} (h : n.NumberedFrom k') (hle : k ≤ k') :
    n.NumberedFrom k := by
  induction n with
  | null => trivial
  | node rn ra c1 c2 mincnt maxcnt grp ih1 ih2 =>
    exact ⟨fun hrn => Nat.le_trans hle (h.1 hrn), ih1 h.2.1, ih2 h.2.2⟩

theorem rnodeGrpnum_numberedFrom (n : Rnode) (num : Nat) :
    (rnodeGrpnum n num).1.NumberedFrom num := by
  induction n generalizing num with
  | null => trivial
  | node rn ra c1 c2 mincnt maxcnt grp ih1 ih2 =>
    rw [rnodeGrpnum]
    refine ⟨?_, (ih1 _).mono (Nat.le_add_right _ _), (ih2 _).mono (Nat.le_add_right _ _)⟩
    rintro rfl
    exact Nat.le_refl _

/-- A tree leaves groups with smaller numbers alone. -/
theorem Rnode.NumberedFrom.keeps {n : Rnode} (h : n.NumberedFrom (g + 1))
    (hq : ∀ s s' r, s ≤ s' → q s r → q s' r) : Keeps (GroupIs sub g q) (n.pat o flg subcnt) := by
  induction n with
  | null => exact .eps
  | node rn ra c1 c2 mincnt maxcnt grp ih1 ih2 =>
    refine keeps_rep ?_ mincnt maxcnt
    cases rn with
    | atom => exact .atom hq ra
    | cat => exact (ih1 h.2.1).seq (ih2 h.2.2)
    | alt => exact (ih1 h.2.1).alt (ih2 h.2.2)
    | grp =>
      have hle := h.1 rfl
      exact (GroupIs.mark (by omega)).seq ((ih1 h.2.1).seq (GroupIs.mark (by omega)))

end

theorem startsFrom_le {o : List UInt8} {flg : ReFlg} (k : Nat) {prev s : Nat} (hs : s ≤ o.length) :
    ∀ t ∈ startsFrom o flg k prev s, t ≤ o.length := by
  induction k generalizing prev s with
  | zero => exact fun t ht => absurd ht List.not_mem_nil
  | succ k ih =>
    rw [startsFrom]
    split
    · intro t ht
      rcases List.mem_cons.mp ht with rfl | ht
      · exact hs
      · refine ih ?_ t ht
        have hlast := ucLen_le (o.drop s)
        rw [List.length_drop] at hlast
        omega
    · exact fun t ht => absurd ht List.not_mem_nil

theorem foldl_setMatch_length (marks : List (Nat × Nat)) (sub : List Regmatch) :
    (marks.foldl setMatch sub).length = sub.length := by
  induction marks generalizing sub with
  | nil => rfl
  | cons m marks ih =>
    rw [List.foldl_cons, ih]
    exact List.length_modify ..

theorem inside_none {nsub len : Nat} : ∀ r ∈ List.replicate nsub ((-1, -1) : Regmatch),
    Inside len r := fun _ hr => .inl (List.eq_of_mem_replicate hr)

/-- The groups of a way from `s` to `e`, of which the whole match is the first. -/
theorem wholePat_groups {tree : Rnode} (hnum : tree.NumberedFrom 1) {o : List UInt8} {flg : ReFlg}
    (hplain : tree.plain flg = true) {subcnt nsub s : Nat} (hs : s ≤ o.length) {z : Found}
    (h : Leads (tree.wholePat o flg subcnt) (s, []) z) :
    (∀ r ∈ z.2.foldl setMatch (List.replicate nsub (-1, -1)), Inside o.length r) ∧
      (0 < subcnt → ∀ r, (z.2.foldl setMatch (List.replicate nsub (-1, -1)))[0]? = some r →
        r = ((s : Int), (z.1 : Int))) := by
  constructor
  · intro r hr
    obtain ⟨g, hg⟩ := List.mem_iff_getElem?.mp hr
    have hgroups (sub : List Regmatch) := @Rnode.keeps_groups o flg subcnt sub g tree
    have hinside := (GroupIs.grp (hgroups _).1 (hgroups (List.replicate nsub (-1, -1))).2 0).2
      (s, []) z h fun r hr => inside_none r (List.mem_of_getElem? hr)
    refine Inside.mono z.1 _ r ?_ (hinside r hg)
    cases h with
    | @seq _ _ _ x₁ _ h₁ h₂ =>
      cases h₂ with
      | @seq _ _ _ x₂ _ h₂ h₃ =>
        cases h₁ with
        | act h₁ =>
          cases h₃ with
          | act h₃ =>
            cases h₁
            cases h₃
            exact Rnode.keeps_le hplain _ x₂ h₂ hs
  · intro hroom r hr
    cases h with
    | @seq _ _ _ x₁ _ h₁ h₂ =>
      cases h₂ with
      | @seq _ _ _ x₂ _ h₂ h₃ =>
        cases h₁ with
        | act h₁ =>
          cases h₃ with
          | act h₃ =>
            have hstart : GroupIs (List.replicate nsub (-1, -1)) 0
                (fun _ r => r.1 = (s : Int)) x₁ :=
              opened_of_mark h₁ (show ¬ subcnt * 2 ≤ 2 * 0 by omega)
            have hkept := hnum.keeps (fun _ _ _ _ h => h) _ _ h₂ hstart
            obtain ⟨hend, r', hr', hs'⟩ := closed_of_mark h₃ (by omega) hkept r hr
            exact Prod.ext (hr'.trans hs') hend

theorem regcompTree_numbered {pat : List UInt8} {tree : Rnode}
    (h : regcompTree pat = some tree) : tree.NumberedFrom 1 := by
  obtain ⟨r, -, hr⟩ := Option.map_eq_some_iff.mp h
  rw [← hr]
  exact rnodeGrpnum_numberedFrom r.1 1

/-- Every group that `regexec` reports takes no part or is a range of the string, and of a match the
first group spans from a start of the search to where the expression has led. -/
theorem regexec_groups {pat : List UInt8} {rflg : ReFlg} {re : Regex} {tree : Rnode}
    (hre : regcomp pat rflg = some (some re)) (htree : regcompTree pat = some tree)
    (hprod : tree.productive = true) (o : List UInt8) (nsub : Nat) (flg : ReFlg)
    (hplain : tree.plain (rflg.or flg) = true) :
    ∃ m, ∀ fuel, m ≤ fuel → ∃ r sub, regexec re o nsub flg fuel = some (r, sub) ∧
      sub.length = nsub ∧ (∀ x ∈ sub, Inside o.length x) ∧
      (r = 0 → flg.nosub = false → ∀ x, sub[0]? = some x →
        ∃ s ∈ starts o flg, ∃ e marks,
          Leads (tree.wholePat o (rflg.or flg) nsub) (s, []) (e, marks) ∧
            x = ((s : Int), (e : Int))) := by
  have hnum := regcompTree_numbered htree
  obtain ⟨m, hm⟩ := regexec_searched hre htree hprod o nsub flg
  refine ⟨m, fun fuel hfuel => ?_⟩
  rcases hm fuel hfuel with
    ⟨sub, hexec, pre, s, post, z, rest, hstarts, -, hout, rfl⟩ | ⟨hexec, -⟩
  · have hmem : s ∈ starts o flg := by
      rw [hstarts]
      exact List.mem_append_right _ List.mem_cons_self
    have hs : s ≤ o.length := startsFrom_le _ (Nat.zero_le _) s hmem
    have hlead : Leads (tree.wholePat o (rflg.or flg) (if flg.nosub then 0 else nsub)) (s, []) z := by
      obtain ⟨x, hx, hlead⟩ := hout.mem_iff.mp List.mem_cons_self
      rwa [List.mem_singleton.mp hx] at hlead
    obtain ⟨hinside, hfirst⟩ := wholePat_groups hnum hplain hs hlead
    refine ⟨0, _, hexec, ?_, hinside, ?_⟩
    · rw [foldl_setMatch_length, List.length_replicate]
    · intro _ hnosub x hx
      rw [hnosub] at hlead hfirst
      have hlen := (List.getElem?_eq_some_iff.mp hx).1
      rw [foldl_setMatch_length, List.length_replicate] at hlen
      exact ⟨s, hmem, z.1, z.2, hlead, hfirst hlen x hx⟩
  · exact ⟨1, _, hexec, List.length_replicate, inside_none, nofun⟩

/-- The groups of a match that ignores case. -/
theorem regexec_groups_choice :
    let tree := (regcompTree choicePat).getD .null
    ∃ m, ∀ fuel, m ≤ fuel → ∃ r sub,
      regexec ⟨emitProgram tree, { icase := true }⟩ (Ascii.bytes "xaBcAd\n") 2 {} fuel =
        some (r, sub) ∧
      sub.length = 2 ∧ (∀ x ∈ sub, Inside (Ascii.bytes "xaBcAd\n").length x) ∧
      (r = 0 → ({} : ReFlg).nosub = false → ∀ x, sub[0]? = some x →
        ∃ s ∈ starts (Ascii.bytes "xaBcAd\n") {}, ∃ e marks,
          Leads (tree.wholePat (Ascii.bytes "xaBcAd\n") (({ icase := true } : ReFlg).or {}) 2)
              (s, []) (e, marks) ∧
            x = ((s : Int), (e : Int))) :=
  regexec_groups (show regcomp choicePat { icase := true } = _ from rfl) rfl (by decide) _ 2 {}
    (by decide)

end Neatvi
