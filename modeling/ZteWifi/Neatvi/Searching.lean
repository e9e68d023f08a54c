import Mathlib.Data.List.GetD
import ZteWifi.Neatvi.Matching
import ZteWifi.Neatvi.Uc

/-!
# Searching a string

`regexec` tries one character of the string after the other.  Where nothing is repeated without end
that can match the empty string, every attempt ends, and the first place at which the expression
matches is found.
-/

open Backtrack

namespace Neatvi

/-! ## 1. Progress -/

section
variable {o : List UInt8} {flg : ReFlg} {subcnt : Nat}

/-- What a literal that is compared without its case moves the position by. -/
theorem matchFolded_progress {ra r : List UInt8} {fuel pos pos' : Nat}
    (h : matchFolded ra r flg fuel pos = some pos') : pos ≤ pos' := by
  induction fuel generalizing pos with
  | zero => exact Nat.le_of_eq (Option.some.inj h)
  | succ fuel ih =>
    rw [matchFolded] at h
    split at h
    · split at h
      · exact Nat.le_trans (Nat.le_add_right _ _) (ih h)
      · cases h
    · exact Nat.le_of_eq (Option.some.inj h)

theorem foldCase_eq_zero {c : Nat} (h : foldCase flg c = 0) : c = 0 := by
  unfold foldCase at h
  split at h
  · next hc =>
    have hlower : ∀ c : Fin 128, (Ascii.tolower c.val.toUInt8).toNat = 0 → c.val = 0 := by decide
    exact hlower ⟨c, hc.2.1⟩ h
  · exact h

theorem foldCase_zero : foldCase flg 0 = 0 := by
  unfold foldCase
  exact if_neg fun h => absurd h.2.2 (by decide)

/-- Whether an atom reads at least one byte. -/
def Ratom.consumes (ra : Ratom) : Bool :=
  match ra.ra with
  | .chr => ucDec ra.s ≠ 0
  | .any => true
  | .brk => true
  | _ => false

theorem matchFolded_consumes {ra r : List UInt8} {pos' : Nat} (hra : ucDec ra ≠ 0)
    (h : matchFolded ra r flg ra.length 0 = some pos') : 0 < pos' ∧ r ≠ [] := by
  have hne : ra.getD 0 0 ≠ 0 := fun hzero => hra (ucDec_eq_zero hzero)
  obtain ⟨n, hn⟩ := Nat.exists_eq_succ_of_ne_zero (Nat.ne_of_gt (getD_ne_zero hne))
  rw [hn, matchFolded, if_pos hne] at h
  split at h
  · next hfold =>
    refine ⟨Nat.lt_of_lt_of_le ?_ (matchFolded_progress h), ?_⟩
    · rw [List.drop_zero, Nat.zero_add]
      exact ucLen_pos hne
    · intro hnil
      rw [hnil, List.drop_nil, List.drop_zero] at hfold
      exact hra (foldCase_eq_zero (hfold.trans foldCase_zero))
  · cases h

/-- An atom that reads nothing. -/
def Ra.anchor : Ra → Bool
  | .beg => true
  | .fin => true
  | .wbeg => true
  | .wend => true
  | _ => false

theorem ratomMatch_anchor {ra : Ratom} (hra : ra.ra.anchor = true) {s s' : Nat}
    (h : ratomMatch ra o s flg = some s') : s' = s := by
  unfold ratomMatch at h
  cases hk : ra.ra with
  | chr =>
    rw [hk] at hra
    cases hra
  | any =>
    rw [hk] at hra
    cases hra
  | brk =>
    rw [hk] at hra
    cases hra
  | beg =>
    simp only [hk] at h
    split at h
    · split at h
      · cases h
      · exact (Option.some.inj h).symm
    · split at h
      · split at h
        · exact (Option.some.inj h).symm
        · cases h
      · cases h
  | fin =>
    simp only [hk] at h
    split at h
    · split at h
      · cases h
      · exact (Option.some.inj h).symm
    · split at h
      · split at h
        · exact (Option.some.inj h).symm
        · cases h
      · cases h
  | wbeg =>
    simp only [hk] at h
    split at h
    · exact (Option.some.inj h).symm
    · cases h
  | wend =>
    simp only [hk] at h
    split at h
    · exact (Option.some.inj h).symm
    · cases h

theorem ratomMatch_progress {ra : Ratom} {s s' : Nat} (h : ratomMatch ra o s flg = some s') :
    s ≤ s' ∧ (ra.consumes = true → s < s' ∧ s < o.length) := by
  have hchar (hne : (o.drop s).getD 0 0 ≠ 0) : s < s + ucLen (o.drop s) ∧ s < o.length := by
    have hlen := getD_ne_zero hne
    rw [List.length_drop] at hlen
    exact ⟨Nat.lt_add_of_pos_right (ucLen_pos hne), by omega⟩
  unfold ratomMatch at h
  unfold Ratom.consumes
  cases hra : ra.ra with
  | chr =>
    simp only [hra] at h ⊢
    split at h
    · obtain ⟨n, hn, rfl⟩ := Option.map_eq_some_iff.mp h
      refine ⟨Nat.le_add_right _ _, fun hc => ?_⟩
      obtain ⟨hpos, hne⟩ := matchFolded_consumes (of_decide_eq_true hc) hn
      exact ⟨Nat.lt_add_of_pos_right hpos, List.drop_eq_nil_iff.not.mp hne |> Nat.lt_of_not_le⟩
    · split at h
      · next hpre =>
        cases h
        refine ⟨Nat.le_add_right _ _, fun hc => ?_⟩
        have hne : ra.s ≠ [] := fun hnil => of_decide_eq_true hc (by rw [hnil]; rfl)
        have hpos := List.length_pos_iff.mpr hne
        have hlen := (List.isPrefixOf_iff_prefix.mp hpre).length_le
        rw [List.length_drop] at hlen
        omega
      · cases h
  | any =>
    simp only [hra] at h ⊢
    split at h
    · cases h
    · next hne =>
      cases h
      exact ⟨Nat.le_add_right _ _, fun _ => hchar (not_or.mp hne).1⟩
  | brk =>
    simp only [hra] at h ⊢
    split at h
    · cases h
    · next hne =>
      split at h
      · cases h
        exact ⟨Nat.le_add_right _ _,
          fun _ => hchar fun hzero => (not_or.mp hne).1 (ucDec_eq_zero hzero)⟩
      · cases h
  | beg => exact ⟨Nat.le_of_eq (ratomMatch_anchor (by rw [hra]; rfl) h).symm, nofun⟩
  | fin => exact ⟨Nat.le_of_eq (ratomMatch_anchor (by rw [hra]; rfl) h).symm, nofun⟩
  | wbeg => exact ⟨Nat.le_of_eq (ratomMatch_anchor (by rw [hra]; rfl) h).symm, nofun⟩
  | wend => exact ⟨Nat.le_of_eq (ratomMatch_anchor (by rw [hra]; rfl) h).symm, nofun⟩

/-- A pattern moves on in the string; `strict` is whether it is sure to read a byte. -/
def Advances (o : List UInt8) (strict : Bool) (p : Pat Found) : Prop :=
  ∀ x y, Leads p x y → x.1 ≤ y.1 ∧ (strict = true → x.1 < y.1 ∧ x.1 < o.length)

theorem Advances.weaken {b : Bool} {p : Pat Found} (h : Advances o b p) : Advances o false p :=
  fun x y hlead => ⟨(h x y hlead).1, nofun⟩

theorem Advances.seq {b b' : Bool} {p q : Pat Found} (hp : Advances o b p)
    (hq : Advances o b' q) : Advances o (b || b') (.seq p q) := by
  intro x z hlead
  cases hlead with
  | @seq _ _ _ y _ hy hz =>
    obtain ⟨hle, hlt⟩ := hp x y hy
    obtain ⟨hle', hlt'⟩ := hq y z hz
    refine ⟨Nat.le_trans hle hle', fun hb => ?_⟩
    rcases Bool.or_eq_true_iff.mp hb with hb | hb
    · have := hlt hb
      omega
    · have := hlt' hb
      omega

theorem Advances.alt {b b' : Bool} {p q : Pat Found} (hp : Advances o b p)
    (hq : Advances o b' q) : Advances o (b && b') (.alt p q) := by
  intro x y hlead
  cases hlead with
  | left h => exact ⟨(hp x y h).1, fun hb => (hp x y h).2 (Bool.and_eq_true_iff.mp hb).1⟩
  | right h => exact ⟨(hq x y h).1, fun hb => (hq x y h).2 (Bool.and_eq_true_iff.mp hb).2⟩

theorem Advances.eps : Advances o false .eps := by
  intro x y hlead
  cases hlead
  exact ⟨Nat.le_refl _, nofun⟩

theorem Advances.mark (subcnt mark : Nat) : Advances o false (.act (markAct subcnt mark)) := by
  intro x y hlead
  cases hlead with
  | act h =>
    cases h
    exact ⟨Nat.le_refl _, nofun⟩

theorem Advances.star {b : Bool} {p : Pat Found} (hp : Advances o b p) :
    Advances o false (.star p) := by
  intro x y hlead
  have hkeeps : Keeps (fun z : Found => x.1 ≤ z.1) p :=
    fun y z hyz hy => Nat.le_trans hy (hp y z hyz).1
  exact ⟨hkeeps.star x y hlead (Nat.le_refl _), nofun⟩

theorem Advances.times {b : Bool} {p : Pat Found} (hp : Advances o b p) (n : Nat) :
    Advances o (n ≠ 0 && b) (p.times n) := by
  induction n with
  | zero => exact .eps
  | succ n ih =>
    have hseq := (ih.weaken).seq hp
    rwa [Bool.false_or, ← Bool.true_and b] at hseq

theorem Advances.upTo {b : Bool} {p : Pat Found} (hp : Advances o b p) (n : Nat) :
    Advances o false (p.upTo n) := by
  induction n with
  | zero => exact .eps
  | succ n ih =>
    intro x y hlead
    cases hlead with
    | once h => exact (hp.weaken.seq ih) x y h
    | skip => exact ⟨Nat.le_refl _, nofun⟩

theorem Advances.rep {b : Bool} {p : Pat Found} (hp : Advances o b p) (mincnt : Nat)
    (maxcnt : Int) : Advances o (mincnt ≠ 0 && b) (repPat p mincnt maxcnt) := by
  unfold repPat
  split
  · next h =>
    rw [h.1]
    exact .eps
  split
  · next h =>
    rw [h.1]
    exact hp
  split
  · have hseq := (hp.times mincnt).seq hp.star
    rwa [Bool.or_false] at hseq
  · have hseq := (hp.times mincnt).seq (hp.upTo (maxcnt - mincnt).toNat)
    rwa [Bool.or_false] at hseq

/-- Whether a node that is matched once reads at least one byte. -/
def norepConsumes (rn : Rn) (ra : Ratom) (b1 b2 : Bool) : Bool :=
  match rn with
  | .atom => ra.consumes
  | .cat => b1 || b2
  | .alt => b1 && b2
  | .grp => b1

def Rnode.consumes : Rnode → Bool
  | .null => false
  | .node rn ra c1 c2 mincnt _ _ => mincnt ≠ 0 && norepConsumes rn ra c1.consumes c2.consumes

theorem Advances.norep {b1 b2 : Bool} {p1 p2 : Pat Found} (h1 : Advances o b1 p1)
    (h2 : Advances o b2 p2) (rn : Rn) (ra : Ratom) (grp : Nat) :
    Advances o (norepConsumes rn ra b1 b2) (norepPat o flg subcnt rn ra p1 p2 grp) := by
  cases rn with
  | atom =>
    intro x y hlead
    cases hlead with
    | act h =>
      obtain ⟨s', hs', rfl⟩ := Option.map_eq_some_iff.mp h
      exact ratomMatch_progress hs'
  | cat => exact h1.seq h2
  | alt => exact h1.alt h2
  | grp =>
    have hgrp :=
      (Advances.mark subcnt (2 * grp)).seq (h1.seq (Advances.mark subcnt (2 * grp + 1)))
    rwa [Bool.false_or, Bool.or_false] at hgrp

theorem Rnode.advances (n : Rnode) : Advances o n.consumes (n.pat o flg subcnt) := by
  induction n with
  | null => exact .eps
  | node rn ra c1 c2 mincnt maxcnt grp ih1 ih2 => exact (ih1.norep ih2 rn ra grp).rep mincnt maxcnt

/-! ## 2. Attempts that end -/

/-- What is repeated without end reads at least one byte each time. -/
def Rnode.productive : Rnode → Bool
  | .null => true
  | .node rn ra c1 c2 _ maxcnt _ =>
    c1.productive && c2.productive &&
      (0 ≤ maxcnt || norepConsumes rn ra c1.consumes c2.consumes)

theorem Advances.shrinks {p : Pat Found} (h : Advances o true p) :
    Shrinks (fun x => o.length - x.1) p := by
  intro x y hlead
  have := (h x y hlead).2 rfl
  show o.length - y.1 < o.length - x.1
  omega

theorem Rnode.pat_productive {n : Rnode} (h : n.productive = true) :
    Productive (fun x => o.length - x.1) (n.pat o flg subcnt) := by
  induction n with
  | null => trivial
  | node rn ra c1 c2 mincnt maxcnt grp ih1 ih2 =>
    rw [Rnode.productive, Bool.and_eq_true, Bool.and_eq_true] at h
    obtain ⟨⟨h1, h2⟩, hrep⟩ := h
    replace ih1 := ih1 h1
    replace ih2 := ih2 h2
    have hnorep : Productive (fun x => o.length - x.1)
        (norepPat o flg subcnt rn ra (c1.pat o flg subcnt) (c2.pat o flg subcnt) grp) := by
      cases rn with
      | atom => trivial
      | cat => exact ⟨ih1, ih2⟩
      | alt => exact ⟨ih1, ih2⟩
      | grp => exact ⟨trivial, ih1, trivial⟩
    rw [Rnode.pat]
    unfold repPat
    split
    · trivial
    split
    · exact hnorep
    refine ⟨hnorep.times _, ?_⟩
    split
    · next hneg =>
      rw [decide_eq_false (by omega), Bool.false_or] at hrep
      refine ⟨hnorep, Advances.shrinks ?_⟩
      have hadv : Advances o (norepConsumes rn ra c1.consumes c2.consumes)
          (norepPat o flg subcnt rn ra (c1.pat o flg subcnt) (c2.pat o flg subcnt) grp) :=
        c1.advances.norep c2.advances rn ra grp
      rwa [hrep] at hadv
    · exact hnorep.upTo _

theorem Rnode.wholePat_productive {n : Rnode} (h : n.productive = true) :
    Productive (fun x => o.length - x.1) (n.wholePat o flg subcnt) :=
  ⟨trivial, n.pat_productive h, trivial⟩

/-! ## 3. The first place that matches -/

/-- The starts that the loop of `regexec` tries. -/
def startsFrom (o : List UInt8) (flg : ReFlg) : Nat → Nat → Nat → List Nat
  | 0, _, _ => []
  | n + 1, prev, s =>
    if o.getD prev 0 ≠ 0 ∧ ¬ (flg.eolstop ∧ prev ≠ 0 ∧ o.getD prev 0 = 0x0A) then
      s :: startsFrom o flg n s (s + ucLen (o.drop s))
    else []

/-- The places at which `regexec` looks for a match. -/
def starts (o : List UInt8) (flg : ReFlg) : List Nat := startsFrom o flg (o.length + 2) 0 0

/-- The loop has found the first start from which there is a way, or there is none. -/
def Located (starts : List Nat) (zs : Nat → List Found) (r : Option (Option Rstate)) : Prop :=
  (∃ pre s post z rest rs, starts = pre ++ s :: post ∧ (∀ s' ∈ pre, zs s' = []) ∧
    zs s = z :: rest ∧ r = some (some rs) ∧ rs.mark.take rs.markPos = z.2) ∨
  (∀ s ∈ starts, zs s = []) ∧ r = some none

theorem Located.cons {starts : List Nat} {zs : Nat → List Found} {r : Option (Option Rstate)}
    (h : Located starts zs r) {s : Nat} (hs : zs s = []) : Located (s :: starts) zs r := by
  rcases h with ⟨pre, s', post, z, rest, rs, rfl, hpre, hfound⟩ | ⟨hnone, hr⟩
  · refine .inl ⟨s :: pre, s', post, z, rest, rs, rfl, ?_, hfound⟩
    intro t ht
    rcases List.mem_cons.mp ht with rfl | ht
    · exact hs
    · exact hpre t ht
  · refine .inr ⟨?_, hr⟩
    intro t ht
    rcases List.mem_cons.mp ht with rfl | ht
    · exact hs
    · exact hnone t ht

theorem regexecLoop_located {re : Regex} {n : Rnode} (hp : re.p = emitProgram n)
    {zs : Nat → List Found}
    (hz : ∀ s, Outcomes (n.wholePat o (re.flg.or flg) subcnt) [(s, [])] (zs s)) (k : Nat)
    {prev s : Nat} (hk : k ≠ 0)
    (hroom : o.getD prev 0 ≠ 0 → s ≤ o.length ∧ o.length + 2 ≤ k + s) :
    ∃ m, ∀ fuel, m ≤ fuel → ∀ rs,
      Located (startsFrom o flg k prev s) zs (regexecLoop re o flg subcnt fuel k prev s rs) := by
  induction k generalizing prev s with
  | zero => exact absurd rfl hk
  | succ k ih =>
    by_cases hgo : o.getD prev 0 ≠ 0 ∧
        ¬ (flg.eolstop ∧ prev ≠ 0 ∧ o.getD prev 0 = 0x0A)
    · obtain ⟨hle, hlen⟩ := hroom hgo.1
      obtain ⟨m₁, hm₁⟩ := reRec_first hp (hz s)
      obtain ⟨m₂, hm₂⟩ := @ih s (s + ucLen (o.drop s)) (by omega) (by
        intro hne
        rw [← Nat.add_zero s, ← getD_drop] at hne
        have hpos := ucLen_pos hne
        have hlast := ucLen_le (o.drop s)
        rw [List.length_drop] at hlast
        omega)
      refine ⟨max m₁ m₂, fun fuel hfuel rs => ?_⟩
      rw [startsFrom, if_pos hgo, regexecLoop, if_pos hgo]
      have hattempt : Attempt (zs s).head? (reRec re o (re.flg.or flg) subcnt fuel
          { rs with s := s, pc := 0, markPos := 0, saved := [] }) := hm₁ rs.mark fuel (by omega)
      cases hzs : zs s with
      | nil =>
        rw [hzs] at hattempt
        obtain ⟨rs', hrec⟩ := hattempt
        rw [hrec]
        exact (hm₂ fuel (by omega) rs').cons hzs
      | cons z rest =>
        rw [hzs] at hattempt
        obtain ⟨rs', hrec, -, hmarks⟩ := hattempt
        rw [hrec]
        exact .inl ⟨[], s, _, z, rest, rs', rfl, nofun, hzs, rfl, hmarks⟩
    · refine ⟨0, fun fuel _ rs => ?_⟩
      rw [startsFrom, if_neg hgo, regexecLoop, if_neg hgo]
      exact .inr ⟨nofun, rfl⟩

end

/-- The first match: the pattern leads nowhere from the starts before it, and the marks are those of
the first way on which it leads from its start. -/
def FirstMatch (p : Pat Found) (starts : List Nat) (sub sub' : List Regmatch) : Prop :=
  ∃ pre s post z rest, starts = pre ++ s :: post ∧ (∀ s' ∈ pre, ∀ y, ¬ Leads p (s', []) y) ∧
    Outcomes p [(s, [])] (z :: rest) ∧ sub' = z.2.foldl setMatch sub

/-- What `regexec` gives, with the pattern of the tree and the groups of before. -/
def Searched (p : Pat Found) (starts : List Nat) (sub : List Regmatch)
    (r : Option (Nat × List Regmatch)) : Prop :=
  (∃ sub', r = some (0, sub') ∧ FirstMatch p starts sub sub') ∨
    r = some (1, sub) ∧ ∀ s ∈ starts, ∀ y, ¬ Leads p (s, []) y

theorem regexec_searched {pat : List UInt8} {rflg : ReFlg} {re : Regex} {tree : Rnode}
    (hre : regcomp pat rflg = some (some re)) (htree : regcompTree pat = some tree)
    (hprod : tree.productive = true) (o : List UInt8) (nsub : Nat) (flg : ReFlg) :
    ∃ m, ∀ fuel, m ≤ fuel →
      Searched (tree.wholePat o (rflg.or flg) (if flg.nosub then 0 else nsub)) (starts o flg)
        (List.replicate nsub (-1, -1)) (regexec re o nsub flg fuel) := by
  obtain rfl := regcomp_eq_some hre htree
  generalize hpat : tree.wholePat o (rflg.or flg) (if flg.nosub then 0 else nsub) = p
  have hprod' : Productive (fun x => o.length - x.1) p := hpat ▸ tree.wholePat_productive hprod
  choose zs hz using fun s => hprod'.exists_outcomes [(s, [])]
  have hnone {s : Nat} (hs : zs s = []) (y : Found) : ¬ Leads p (s, []) y := by
    intro hlead
    have hmem := (hz s).mem_iff.mpr ⟨_, List.mem_cons_self, hlead⟩
    rw [hs] at hmem
    exact List.not_mem_nil hmem
  obtain ⟨m, hm⟩ := @regexecLoop_located o flg (if flg.nosub then 0 else nsub)
    ⟨emitProgram tree, rflg⟩ tree rfl zs (hpat ▸ hz) (o.length + 2) 0 0 (by omega) (by omega)
  refine ⟨m, fun fuel hfuel => ?_⟩
  rw [regexec]
  rcases hm fuel hfuel ⟨0, 0, [], 0, []⟩ with
    ⟨pre, s, post, z, rest, rs, hstarts, hpre, hzs, hloop, hmarks⟩ | ⟨hall, hloop⟩
  · refine .inl ⟨_, by rw [hloop]; rfl, pre, s, post, z, rest, hstarts,
      fun s' hs' => hnone (hpre s' hs'), ?_, ?_⟩
    · rw [← hzs]
      exact hz s
    · rw [rstateMarks, hmarks]
  · exact .inr ⟨by rw [hloop]; rfl, fun s hs => hnone (hall s hs)⟩

/-- A pattern with a repetition, a choice and a group. -/
def choicePat : List UInt8 := Ascii.bytes "(a|bc)*d"

end Neatvi
