import Mathlib.Order.Fin.Basic
import ZteWifi.Neatvi.Saved

/-!
# Marks across undo

`lbuf_opt` saves the marks on the lines that it is about to delete, and `lbuf_undo` moves the others
back with their lines.  Undoing a change set therefore brings back the marks `a` to `z` and the
quote mark with the lines, however many edits the set has.
-/

open Ascii

namespace Neatvi

/-! ## 1. What the functions do to the marks of the user -/

/-- The number of marks that only the user sets: `a` to `z` and the quote. -/
abbrev nletters : Nat := 27

theorem nletters_le : nletters ≤ nmarks := by decide

/-- The place of such a mark. -/
def letter (m : Fin nletters) : Fin nmarks := m.castLE nletters_le

theorem letter_ne {m : Fin nletters} {i : Fin nmarks} (hi : nletters ≤ i.val) : letter m ≠ i := by
  rintro rfl
  have hm : (letter m).val = m.val := rfl
  have hlt := m.isLt
  omega

/-- The lines, and the marks of the user with their offsets. -/
abbrev View := List Line × (Fin nletters → Int × Int)

def Lbuf.view (lb : Lbuf) : View := (lb.ln, fun m => (lb.mark (letter m), lb.markOff (letter m)))

/-- Entries of other marks are set. -/
theorem setMark_view {lb : Lbuf} {i : Fin nmarks} (hi : nletters ≤ i.val) (pos off : Int) :
    (lb.setMark i pos off).view = lb.view := by
  refine Prod.ext rfl (funext fun m => ?_)
  show (Function.update lb.mark i pos (letter m), Function.update lb.markOff i off (letter m)) = _
  rw [Function.update_of_ne (letter_ne hi), Function.update_of_ne (letter_ne hi)]
  rfl

theorem lbufReplace_view (lb : Lbuf) (s : Option (List UInt8)) (slen pos nDel : Nat) :
    (lbufReplace lb s slen pos nDel).view =
      (splice pos nDel (linesOf (textOf s slen)) lb.ln, fun m =>
        (movedMark s.isNone pos (linecount (textOf s slen)) nDel (lb.mark (letter m)),
          lb.markOff (letter m))) :=
  (setMark_view (i := closeIdx) (by decide) _ _).trans
    ((setMark_view (i := openIdx) (by decide) _ _).trans rfl)

theorem lbufLoadpos_view (lb : Lbuf) (lo : Lopt) : (lbufLoadpos lb lo).view = lb.view :=
  (setMark_view (i := starIdx) (by decide) _ _).trans
    (setMark_view (i := caretIdx) (by decide) _ _)

/-- Entries that are set one after the other, where `p` says so. -/
theorem foldl_entries {σ ι β : Type} [DecidableEq ι] {g : σ → ι → β} {f : σ → ι → σ} {p : ι → Prop}
    [DecidablePred p] {x : ι → β} (h : ∀ s i m, g (f s i) m = if m = i ∧ p i then x i else g s m)
    (is : List ι) (s : σ) (m : ι) :
    g (is.foldl f s) m = if m ∈ is ∧ p m then x m else g s m := by
  induction is generalizing s with
  | nil => exact (if_neg fun hm => absurd hm.1 nofun).symm
  | cons i is ih =>
    show g (is.foldl f (f s i)) m = _
    rw [ih, h]
    by_cases hm : m ∈ is ∧ p m
    · rw [if_pos hm, if_pos ⟨List.mem_cons_of_mem _ hm.1, hm.2⟩]
    · rw [if_neg hm]
      by_cases hi : m = i ∧ p i
      · rw [if_pos hi, if_pos ⟨hi.1 ▸ List.mem_cons_self, hi.1.symm ▸ hi.2⟩, hi.1]
      · rw [if_neg hi, if_neg]
        rintro ⟨hmem, hp⟩
        rcases List.mem_cons.mp hmem with rfl | hmem
        · exact hi ⟨rfl, hp⟩
        · exact hm ⟨hmem, hp⟩

/-- A mark set with its offset, in the two arrays. -/
theorem update_pair (f g : Fin nmarks → Int) (i m : Fin nmarks) (a b : Int) :
    (Function.update f i a m, Function.update g i b m) = if m = i then (a, b) else (f m, g m) := by
  by_cases h : m = i
  · subst h
    rw [if_pos rfl, Function.update_self, Function.update_self]
  · rw [if_neg h, Function.update_of_ne h, Function.update_of_ne h]

theorem loadmarks_mark (lb : Lbuf) (lo : Lopt) (is : List (Fin nmarks)) (m : Fin nmarks) :
    ((is.foldl (fun lb i => lbufLoadmark lb lo i) lb).mark m,
        (is.foldl (fun lb i => lbufLoadmark lb lo i) lb).markOff m) =
      if m ∈ is ∧ 0 ≤ lo.mark m then (lo.mark m, lo.markOff m) else (lb.mark m, lb.markOff m) := by
  refine foldl_entries (g := fun lb m => (Lbuf.mark lb m, lb.markOff m))
    (p := fun i => 0 ≤ lo.mark i) (x := fun i => (lo.mark i, lo.markOff i)) ?_ is lb m
  intro lb i m
  rw [lbufLoadmark]
  by_cases hi : 0 ≤ lo.mark i
  · rw [if_pos hi]
    refine (update_pair _ _ i m _ _).trans ?_
    simp only [hi, and_true]
  · rw [if_neg hi, if_neg fun h => hi h.2]

theorem savemarks_mark (lb : Lbuf) (lo : Lopt) (is : List (Fin nmarks)) (m : Fin nmarks) :
    ((is.foldl (lbufSavemark lb) lo).mark m, (is.foldl (lbufSavemark lb) lo).markOff m) =
      if m ∈ is ∧ 0 ≤ lb.mark m then (lb.mark m, lb.markOff m) else (lo.mark m, lo.markOff m) := by
  refine foldl_entries (g := fun lo m => (Lopt.mark lo m, lo.markOff m))
    (p := fun i => 0 ≤ lb.mark i) (x := fun i => (lb.mark i, lb.markOff i)) ?_ is lo m
  intro lo i m
  rw [lbufSavemark]
  by_cases hi : 0 ≤ lb.mark i
  · rw [if_pos hi]
    refine (update_pair _ _ i m _ _).trans ?_
    simp only [hi, and_true]
  · rw [if_neg hi, if_neg fun h => hi h.2]

/-! ## 2. Taking back one operation -/

/-- What undoing an operation does to the lines and the marks of the user. -/
def back (lo : Lopt) (v : View) : View :=
  (splice lo.pos lo.nIns lo.patch.del v.1, fun m =>
    if 0 ≤ lo.mark (letter m) then (lo.mark (letter m), lo.markOff (letter m))
    else (movedMark lo.del.isNone lo.pos lo.patch.del.length lo.nIns (v.2 m).1, (v.2 m).2))

theorem undoOpt_view (lb : Lbuf) (lo : Lopt) : (undoOpt lb lo).view = back lo lb.view := by
  have hln : (undoOpt lb lo).ln = (lbufReplace lb lo.del lo.delLen lo.pos lo.nIns).ln := by
    show (undoOpt lb lo).unmarked.ln = _
    rw [undoOpt_unmarked]
    rfl
  refine Prod.ext (hln.trans (lbufReplace_ln ..)) (funext fun m => ?_)
  refine (loadmarks_mark _ lo (List.finRange nmarks) (letter m)).trans ?_
  have hbefore := (lbufLoadpos_view (lbufReplace lb lo.del lo.delLen lo.pos lo.nIns) lo).trans
    (lbufReplace_view lb lo.del lo.delLen lo.pos lo.nIns)
  have hm := congrFun (congrArg Prod.snd hbefore) m
  show _ = ite _ _ _
  by_cases hsaved : 0 ≤ lo.mark (letter m)
  · rw [if_pos ⟨List.mem_finRange _, hsaved⟩, if_pos hsaved]
  · rw [if_neg fun h => hsaved h.2, if_neg hsaved]
    refine hm.trans ?_
    rw [Lopt.patch, linesOf_length]
    rfl

/-- A mark that is not on a replaced line moves with its line, and back with it. -/
theorem movedMark_movedMark {v : Int} {pos nDel : Nat} (hv : ¬ (pos ≤ v ∧ v < pos + nDel))
    (null null' : Bool) (nIns : Nat) :
    movedMark null' pos nDel nIns (movedMark null pos nIns nDel v) = v := by
  rw [movedMark.eq_def null, if_neg fun h => hv h.2]
  by_cases hbehind : (pos : Int) + nDel ≤ v
  · rw [if_pos hbehind, movedMark, if_neg (by omega), if_pos (by omega)]
    omega
  · rw [if_neg hbehind, if_neg (by omega), movedMark, if_neg (by omega), if_neg (by omega),
      if_neg (by omega)]

/-! ## 3. Taking back an edit -/

section
variable {lb : Lbuf} {s : Option (List UInt8)} {slen pos nDel : Nat}

/-- The marks saved with an appended operation are those on the lines it deletes. -/
theorem savedLopt_mark (lb : Lbuf) (s : Option (List UInt8)) (slen pos nDel : Nat)
    (m : Fin nletters) :
    ((savedLopt lb s slen pos nDel).mark (letter m),
        (savedLopt lb s slen pos nDel).markOff (letter m)) =
      if pos ≤ lb.mark (letter m) ∧ lb.mark (letter m) < pos + nDel then
        (lb.mark (letter m), lb.markOff (letter m))
      else (-1, 0) := by
  have hview : (lbufMarkcopy lb starIdx caretIdx).view = lb.view :=
    setMark_view (by decide) _ _
  have hm : ((lbufMarkcopy lb starIdx caretIdx).mark (letter m),
      (lbufMarkcopy lb starIdx caretIdx).markOff (letter m)) =
        (lb.mark (letter m), lb.markOff (letter m)) := congrFun (congrArg Prod.snd hview) m
  obtain ⟨hmark, hoff⟩ := Prod.mk.inj hm
  have hnew : ((lbufSavepos lb (newLopt lb s slen pos nDel)).2.mark (letter m),
      (lbufSavepos lb (newLopt lb s slen pos nDel)).2.markOff (letter m)) = (-1, 0) := by
    rw [lbufSavepos]
    split <;> rfl
  refine (savemarks_mark (lbufMarkcopy lb starIdx caretIdx)
    (lbufSavepos lb (newLopt lb s slen pos nDel)).2 _ (letter m)).trans ?_
  rw [hmark, hoff]
  have hmem : letter m ∈ savedMarks (lbufMarkcopy lb starIdx caretIdx) pos nDel ↔
      pos ≤ lb.mark (letter m) ∧ lb.mark (letter m) < pos + nDel := by
    rw [savedMarks, List.mem_filter, hmark, decide_eq_true_iff]
    have hbase : (letter m).val < nmarksBase :=
      Nat.lt_trans m.isLt (by decide : nletters < nmarksBase)
    exact ⟨fun h => h.2.2, fun h => ⟨List.mem_finRange _, hbase, h⟩⟩
  refine if_congr ?_ rfl hnew
  exact ⟨fun h => hmem.mp h.1, fun h => ⟨hmem.mpr h, by omega⟩⟩

/-- Undoing the operation that an edit appends takes the edit back. -/
theorem back_append (h : lb.Lined) (hist : List Lopt) (hle : pos + nDel ≤ lb.ln.length)
    (hs : Separated ((lb.ln.drop pos).take nDel))
    (hdup : textOf (s.map ucDup) slen = textOf s slen) :
    back (savedLopt lb s slen pos nDel)
      (lbufReplace (appendOpt lb hist s slen pos nDel) s slen pos nDel).view = lb.view := by
  have hpatch := savedLopt_patch h hs hdup
  have hcounted := savedLopt_counted h hle hs hdup
  have hpos : (savedLopt lb s slen pos nDel).pos = pos := congrArg Patch.pos hpatch
  have hlen := range_length hle
  have hins : (savedLopt lb s slen pos nDel).nIns = (linesOf (textOf s slen)).length := by
    rw [hcounted.ins, hpatch]
  have hview : (appendOpt lb hist s slen pos nDel).view = lb.view := by
    show (lbufMarkcopy lb starIdx caretIdx).view = lb.view
    exact setMark_view (by decide) _ _
  rw [lbufReplace_view, back, hpatch, hpos, hins]
  refine Prod.ext ?_ (funext fun m => ?_)
  · show splice pos _ _ (splice pos nDel _ (appendOpt lb hist s slen pos nDel).ln) = lb.ln
    exact splice_restore hle _
  · obtain ⟨hmark, hoff⟩ := Prod.mk.inj (congrFun (congrArg Prod.snd hview) m)
    have hsaved := savedLopt_mark lb s slen pos nDel m
    show ite _ _ _ = (lb.mark (letter m), lb.markOff (letter m))
    dsimp only
    rw [hmark, hoff, hlen, ← linesOf_length]
    by_cases hin : pos ≤ lb.mark (letter m) ∧ lb.mark (letter m) < pos + nDel
    · rw [if_pos hin] at hsaved
      obtain ⟨hfst, hsnd⟩ := Prod.mk.inj hsaved
      rw [hfst, hsnd, if_pos (by omega)]
    · rw [if_neg hin] at hsaved
      rw [(Prod.mk.inj hsaved).1, if_neg (by decide), movedMark_movedMark hin]

/-- Undoing an operation with a changed text takes both edits back. -/
theorem back_merge (h : lb.Wf) {hist : List Lopt} {lo : Lopt}
    (hlast : lb.hist.take lb.histU = hist ++ [lo])
    (hm : lo.merges lb.useq s slen pos nDel = true) :
    back (mergedLopt lb lo s slen)
        (lbufReplace (mergeOpt lb (hist ++ [lo]) lo s slen) s slen pos nDel).view =
      back lo lb.view := by
  obtain ⟨hholds, hinsLen⟩ := merges_holds h hlast hm
  obtain ⟨-, hpos, hins, hdel, hone⟩ := of_decide_eq_true hm
  have hnew : linecount (textOf s slen) = 1 := hone
  have hnull : s.isNone = false := by
    cases s with
    | none =>
      rw [textOf_none] at hnew
      exact absurd hnew (by decide)
    | some t => rfl
  have hpatch := mergedLopt_patch lb lo s slen
  have hview : (mergeOpt lb (hist ++ [lo]) lo s slen).view = lb.view := by
    show (lbufMarkcopy lb starIdx caretIdx).view = lb.view
    exact setMark_view (by decide) _ _
  have hsame : (mergedLopt lb lo s slen).pos = lo.pos ∧ (mergedLopt lb lo s slen).nIns = lo.nIns ∧
      (mergedLopt lb lo s slen).del = lo.del ∧ (mergedLopt lb lo s slen).mark = lo.mark ∧
      (mergedLopt lb lo s slen).markOff = lo.markOff := by
    rw [mergedLopt, lbufSavepos]
    split <;> exact ⟨rfl, rfl, rfl, rfl, rfl⟩
  obtain ⟨hposM, hinsM, hdelM, hmarkM, hoffM⟩ := hsame
  rw [lbufReplace_view, back, back, hpatch, hposM, hinsM, hdelM, hmarkM, hoffM, hpos, hins, hdel,
    hnew, hnull]
  refine Prod.ext ?_ (funext fun m => ?_)
  · rw [hdel] at hinsLen
    have hlines : (linesOf (textOf s slen)).length = 1 := (linesOf_length _).trans hnew
    show splice pos 1 lo.patch.del (splice pos 1 _ (mergeOpt lb (hist ++ [lo]) lo s slen).ln) =
      splice pos 1 lo.patch.del lb.ln
    have hsplice := hholds.splice_splice (linesOf (textOf s slen)) lo.patch.del
    rw [hlines, hinsLen] at hsplice
    exact hsplice
  · obtain ⟨hmark, hoff⟩ := Prod.mk.inj (congrFun (congrArg Prod.snd hview) m)
    -- a line in the place of a line moves no mark
    have hstay : movedMark false pos 1 1 (lb.mark (letter m)) = lb.mark (letter m) := by
      rw [movedMark, if_neg (fun h => Bool.false_ne_true h.1)]
      split
      · omega
      · rfl
    show ite _ _ _ = ite _ _ _
    dsimp only
    rw [hmark, hoff, hstay]
    rfl

end

/-! ## 4. Taking back a change set -/

/-- The operations made in change set `q`, those behind `base`, lead back to `v`. -/
def LeadsBack (q : ℕ) (base : List Lopt) (v : View) (lb : Lbuf) : Prop :=
  ∃ ops, lb.hist.take lb.histU = base ++ ops ∧ (∀ lo ∈ ops, lo.seq = q) ∧ ops.foldr back lb.view = v

/-- The last operation before the change set is of another one. -/
def Before (q : ℕ) (base : List Lopt) : Prop := ∀ lo ∈ base.getLast?, lo.seq ≠ q

section
variable {base : List Lopt} {v : View} {lb : Lbuf} {s : Option (List UInt8)} {slen pos nDel : Nat}

/-- The history behind an edit ends with its operation. -/
theorem Recorded.done {lb' : Lbuf} {hist : List Lopt} (h : Recorded lb lb' hist)
    (s : Option (List UInt8)) (slen pos nDel : Nat) :
    (lbufReplace lb' s slen pos nDel).hist.take (lbufReplace lb' s slen pos nDel).histU = hist := by
  have hrecord := (lbufReplace_record lb' s slen pos nDel).trans h.record
  have hhist : (lbufReplace lb' s slen pos nDel).hist = hist := congrArg (·.1) hrecord
  have hhistU : (lbufReplace lb' s slen pos nDel).histU = hist.length := congrArg (·.2.1) hrecord
  rw [hhist, hhistU, List.take_length]

theorem appendOpt_leadsBack (hwf : lb.Wf) (h : LeadsBack lb.useq base v lb)
    (hle : pos + nDel ≤ lb.ln.length) (hs : Separated ((lb.ln.drop pos).take nDel))
    (hdup : textOf (s.map ucDup) slen = textOf s slen) :
    LeadsBack lb.useq base v
      (lbufReplace (appendOpt lb (lb.hist.take lb.histU) s slen pos nDel) s slen pos nDel) := by
  obtain ⟨ops, htake, hops, hview⟩ := h
  refine ⟨ops ++ [savedLopt lb s slen pos nDel], ?_, ?_, ?_⟩
  · rw [(appendOpt_recorded lb (lb.hist.take lb.histU) s slen pos nDel).done, htake,
      List.append_assoc]
  · intro lo hlo
    rcases List.mem_append.mp hlo with hlo | hlo
    · exact hops lo hlo
    · rw [List.mem_singleton.mp hlo, savedLopt_seq]
  · rw [List.foldr_append, List.foldr_cons, List.foldr_nil, back_append hwf.lined _ hle hs hdup,
      hview]

theorem mergeOpt_leadsBack (hwf : lb.Wf) (h : LeadsBack lb.useq base v lb)
    (hbase : Before lb.useq base) {hist : List Lopt} {lo : Lopt}
    (hlast : lb.hist.take lb.histU = hist ++ [lo])
    (hm : lo.merges lb.useq s slen pos nDel = true) :
    LeadsBack lb.useq base v
      (lbufReplace (mergeOpt lb (hist ++ [lo]) lo s slen) s slen pos nDel) := by
  obtain ⟨ops, htake, hops, hview⟩ := h
  have hseq : lo.seq = lb.useq := (of_decide_eq_true hm).1
  -- the operation that the change joins is one of the set
  obtain ⟨ops', rfl⟩ : ∃ ops', ops = ops' ++ [lo] := by
    rcases List.eq_nil_or_concat ops with rfl | ⟨ops', lo', rfl⟩
    · rw [List.append_nil, hlast] at htake
      refine absurd hseq (hbase lo ?_)
      rw [← htake, List.getLast?_append]
      rfl
    · rw [List.concat_eq_append, ← List.append_assoc, hlast] at htake
      have hlo : lo = lo' := List.singleton_inj.mp (List.append_inj_right' htake rfl)
      exact ⟨ops', by rw [List.concat_eq_append, hlo]⟩
  have hhist : hist = base ++ ops' := by
    rw [hlast, ← List.append_assoc] at htake
    exact List.append_inj_left' htake rfl
  refine ⟨ops' ++ [mergedLopt lb lo s slen], ?_, ?_, ?_⟩
  · rw [(mergeOpt_recorded lb hist lo s slen).done, hhist, List.append_assoc]
  · intro lo' hlo'
    rcases List.mem_append.mp hlo' with hlo' | hlo'
    · exact hops lo' (List.mem_append_left _ hlo')
    · rw [List.mem_singleton.mp hlo']
      show (mergedLopt lb lo s slen).unmarked.seq = lb.useq
      rw [mergedLopt_unmarked]
      exact hseq
  · rw [← hview, List.foldr_append, List.foldr_append, List.foldr_cons, List.foldr_cons,
      List.foldr_nil, List.foldr_nil, back_merge hwf hlast hm]

theorem lbufEditraw_leadsBack {beg fin : Nat} (hwf : lb.Wf) (h : LeadsBack lb.useq base v lb)
    (hbase : Before lb.useq base) (hs : Separated ((lb.ln.drop beg).take (fin - beg)))
    (hdup : textOf (s.map ucDup) slen = textOf s slen) :
    LeadsBack lb.useq base v (lbufEditraw lb s slen beg fin) := by
  rw [lbufEditraw]
  split
  · exact h
  generalize hpos : min beg lb.ln.length = pos
  generalize hnDel : min fin lb.ln.length - pos = nDel
  rw [← range_clip, hpos, hnDel] at hs
  have happend : LeadsBack lb.useq base v
      (lbufReplace (appendOpt lb (lb.hist.take lb.histU) s slen pos nDel) s slen pos nDel) :=
    appendOpt_leadsBack hwf h (by omega) hs hdup
  rw [lbufOpt]
  rcases List.eq_nil_or_concat (lb.hist.take lb.histU) with hnil | ⟨hist, lo, hlast⟩
  · rw [hnil] at happend ⊢
    exact happend
  · rw [List.concat_eq_append] at hlast
    have hget : (lb.hist.take lb.histU).getLast? = some lo := by
      rw [hlast, List.getLast?_append]
      rfl
    rw [hget]
    simp only
    split
    · next hm =>
      rw [hlast]
      exact mergeOpt_leadsBack hwf h hbase hlast hm
    · exact happend

end

/-- What the loop of `lbuf_undo` makes of the lines and the marks of the user. -/
theorem undoLoop_view {q : ℕ} {base ops : List Lopt} {u : Nat} {lb : Lbuf}
    (hle : u ≤ lb.hist.length) (htake : lb.hist.take u = base ++ ops)
    (hops : ∀ lo ∈ ops, lo.seq = q) (hbase : Before q base) :
    (undoLoop q u lb).view = ops.foldr back lb.view := by
  induction u generalizing lb ops with
  | zero =>
    rw [List.take_zero] at htake
    have hnil : ops = [] := (List.append_eq_nil_iff.mp htake.symm).2
    rw [hnil]
    rfl
  | succ u ih =>
    obtain ⟨lo, hlo⟩ : ∃ lo, lb.hist[u]? = some lo := ⟨lb.hist[u], List.getElem?_eq_getElem hle⟩
    rw [(take_drop_of_getElem? hlo).1] at htake
    rw [undoLoop, hlo]
    simp only
    rcases List.eq_nil_or_concat ops with rfl | ⟨ops', lo', rfl⟩
    · -- the set has been taken back
      rw [List.append_nil] at htake
      have hne : lo.seq ≠ q := by
        apply hbase
        rw [← htake, List.getLast?_append]
        rfl
      rw [if_neg hne]
      rfl
    · rw [List.concat_eq_append, ← List.append_assoc] at htake
      have heq : lo = lo' := List.singleton_inj.mp (List.append_inj_right' htake rfl)
      subst heq
      have hmem : lo ∈ ops'.concat lo := by
        rw [List.concat_eq_append]
        exact List.mem_append_right _ List.mem_cons_self
      have hhist : (undoOpt { lb with histU := u } lo).hist = lb.hist :=
        congrArg (·.1) (undoOpt_record { lb with histU := u } lo)
      rw [if_pos (hops lo hmem), ih (by rw [hhist]; omega)
        (by rw [hhist]; exact List.append_inj_left' htake rfl)
        (fun lo'' hlo'' => hops lo'' (by
          rw [List.concat_eq_append]
          exact List.mem_append_left _ hlo'')), undoOpt_view, List.concat_eq_append,
        List.foldr_append]
      rfl

/-- Operations are made in change sets up to the one that is open. -/
def Stamped (lb : Lbuf) : Prop := ∀ lo ∈ lb.hist, lo.seq ≤ lb.useq

theorem lbufEditraw_stamped {lb : Lbuf} (h : Stamped lb) (s : Option (List UInt8))
    (slen beg fin : Nat) : Stamped (lbufEditraw lb s slen beg fin) := by
  have hreplace (lb' : Lbuf) (pos nDel : Nat) (hlb' : Stamped lb') :
      Stamped (lbufReplace lb' s slen pos nDel) := by
    have hrecord := lbufReplace_record lb' s slen pos nDel
    have hhist : (lbufReplace lb' s slen pos nDel).hist = lb'.hist := congrArg (·.1) hrecord
    have huseq : (lbufReplace lb' s slen pos nDel).useq = lb'.useq := congrArg (·.2.2.1) hrecord
    rw [Stamped, hhist, huseq]
    exact hlb'
  have happend (pos nDel : Nat) :
      Stamped (appendOpt lb (lb.hist.take lb.histU) s slen pos nDel) := by
    intro lo hlo
    rcases List.mem_append.mp hlo with hlo | hlo
    · exact h lo (List.mem_of_mem_take hlo)
    · rw [List.mem_singleton.mp hlo, savedLopt_seq]
      exact Nat.le_refl _
  rw [lbufEditraw]
  split
  · exact h
  · apply hreplace
    rw [lbufOpt]
    split
    · next lo hlast =>
      split
      · intro lo' hlo'
        rcases List.mem_append.mp hlo' with hlo' | hlo'
        · exact h lo' (List.mem_of_mem_take (List.dropLast_subset _ hlo'))
        · rw [List.mem_singleton.mp hlo']
          show (mergedLopt lb lo s slen).unmarked.seq ≤ lb.useq
          rw [mergedLopt_unmarked]
          exact h lo (List.mem_of_mem_take (List.mem_of_getLast? hlast))
      · exact happend _ _
    · exact happend _ _

theorem exec_stamped {lb : Lbuf} (hwf : lb.Wf) (h : Stamped lb) (op : Op) :
    Stamped (exec lb op) := by
  have hrecord (lb' : Lbuf) (u : Nat) (hlb' : lb'.record = { lb with histU := u }.record) :
      Stamped lb' := by
    have hhist : lb'.hist = lb.hist := congrArg (·.1) hlb'
    have huseq : lb'.useq = lb.useq := congrArg (·.2.2.1) hlb'
    rw [Stamped, hhist, huseq]
    exact h
  cases op with
  | edit s beg fin => exact lbufEditraw_stamped h _ _ beg fin
  | rd rs beg fin =>
    show Stamped (lbufRd lb rs beg fin).2
    rw [lbufRd]
    split
    · exact lbufEditraw_stamped h _ _ beg fin
    · exact h
  | undo =>
    obtain ⟨u, -, hundo⟩ := lbufUndo_record hwf
    exact hrecord _ u hundo
  | redo =>
    obtain ⟨u, -, hredo⟩ := lbufRedo_record hwf
    exact hrecord _ u hredo
  | tx => exact fun lo hlo => Nat.le_succ_of_le (h lo hlo)
  | saved clear =>
    cases clear with
    | false => exact h
    | true => exact fun lo hlo => absurd hlo List.not_mem_nil
  | mark c pos off =>
    show Stamped (lbufMark lb c pos off).unmarked
    rw [lbufMark_unmarked]
    exact h
  | globset pos dep => exact h
  | globget pos dep => exact h

theorem run_stamped {ops : List Op} {lb : Lbuf} (h : Run Step lbufMake ops lb) :
    lb.Wf ∧ Stamped lb := by
  refine Run.invariant (I := fun lb => lb.Wf ∧ Stamped lb) ?_ h ⟨lbufMake_wf, nofun⟩
  rintro lb op lb' ⟨hwf, hstamped⟩ ⟨hclean, rfl⟩
  exact ⟨(exec_timeline hwf hclean).1, exec_stamped hwf hstamped op⟩

/-- Along edits the operations of the change set lead back to where it began. -/
theorem run_leadsBack {base : List Lopt} {v : View} {es : List Op} {lb lb' : Lbuf}
    (h : Run Step lb es lb') (hedits : ∀ op ∈ es, op.edits = true) (hwf : lb.Wf)
    (hlb : LeadsBack lb.useq base v lb) (hbase : Before lb.useq base) :
    lb'.Wf ∧ lb'.useq = lb.useq ∧ LeadsBack lb.useq base v lb' := by
  induction h with
  | nil lb => exact ⟨hwf, rfl, hlb⟩
  | @cons lb lb₁ lb' op es hstep _ ih =>
    obtain ⟨hclean, rfl⟩ := hstep
    have hstep := exec_timeline hwf hclean
    have hnext : (exec lb op).useq = lb.useq ∧ LeadsBack lb.useq base v (exec lb op) := by
      cases op with
      | edit s beg fin =>
        refine ⟨lbufEditraw_useq lb _ _ beg fin, ?_⟩
        cases s with
        | none => exact lbufEditraw_leadsBack hwf hlb hbase hclean.2 rfl
        | some t =>
          refine lbufEditraw_leadsBack hwf hlb hbase hclean.2 ?_
          show (ucDup t).take (ucDup t).length = t.take (ucDup t).length
          rw [List.take_length, textOf_ucDup]
      | rd rs beg fin =>
        show (lbufRd lb rs beg fin).2.useq = _ ∧ LeadsBack _ _ _ (lbufRd lb rs beg fin).2
        rw [lbufRd]
        rcases hrd : rdLoop [] rs with ⟨_ | _, sb⟩
        · exact ⟨rfl, hlb⟩
        · have hnul : (0 : UInt8) ∉ sb := by
            have := hclean.2
            rwa [hrd] at this
          refine ⟨lbufEditraw_useq lb _ _ beg fin, ?_⟩
          refine lbufEditraw_leadsBack hwf hlb hbase hclean.1.2 ?_
          rw [Option.map_some, ucDup_eq hnul]
      | _ => exact absurd (hedits _ List.mem_cons_self) Bool.false_ne_true
    obtain ⟨huseq, hleads⟩ := hnext
    have hrest := ih (fun op' hop' => hedits op' (List.mem_cons_of_mem _ hop')) hstep.1
      (by rwa [huseq]) (by rwa [huseq])
    exact ⟨hrest.1, hrest.2.1.trans huseq, huseq ▸ hrest.2.2⟩

theorem markidx_letter {c : UInt8} (hc : islower c = true ∨ c = 0x27 ∨ c = 0x60) :
    ∃ m, markidx c = some (letter m) := by
  rcases hc with hlower | hquote
  · have hrange := hlower
    rw [islower, Bool.and_eq_true, decide_eq_true_eq, decide_eq_true_eq, UInt8.le_iff_toNat_le,
      UInt8.le_iff_toNat_le] at hrange
    simp only [UInt8.reduceToNat] at hrange
    have hlt : c.toNat - 0x61 < 26 := by omega
    refine ⟨⟨c.toNat - 0x61, Nat.lt_succ_of_lt hlt⟩, ?_⟩
    rw [markidx, if_pos hlower]
    exact congrArg some (Fin.ext (Nat.mod_eq_of_lt (Nat.lt_trans hlt (by decide))))
  · refine ⟨26, ?_⟩
    rcases hquote with rfl | rfl <;> rfl

/-- A change set that has changed the lines is undone as a whole: the lines are back, and every mark
`a` to `z` and the quote mark is where it was. -/
theorem lbufUndo_restores {pre es : List Op} {lb lb' : Lbuf} (hpre : Run Step lbufMake pre lb)
    (hes : Run Step (lbufTx lb) es lb') (hedits : ∀ op ∈ es, op.edits = true)
    (hchanged : lb'.ln ≠ lb.ln) :
    (lbufUndo lb').1 = 0 ∧ (lbufUndo lb').2.ln = lb.ln ∧
      ∀ c, islower c = true ∨ c = 0x27 ∨ c = 0x60 →
        lbufJump (lbufUndo lb').2 c = lbufJump lb c := by
  obtain ⟨hwf, hstamped⟩ := run_stamped hpre
  have hwfTx : (lbufTx lb).Wf := (exec_timeline hwf (show Clean lb .tx from trivial)).1
  have hbase : Before (lbufTx lb).useq (lb.hist.take lb.histU) := by
    intro lo hlo
    have hle := hstamped lo (List.mem_of_mem_take (List.mem_of_getLast? hlo))
    exact Nat.ne_of_lt (Nat.lt_succ_of_le hle)
  have hstart : LeadsBack (lbufTx lb).useq (lb.hist.take lb.histU) lb.view (lbufTx lb) :=
    ⟨[], (List.append_nil _).symm, nofun, rfl⟩
  obtain ⟨hwf', -, ops, htake, hops, hview⟩ := run_leadsBack hes hedits hwfTx hstart hbase
  have hundo : (lbufUndo lb').1 = 0 ∧ (lbufUndo lb').2.view = lb.view := by
    rcases List.eq_nil_or_concat ops with rfl | ⟨ops', lo, rfl⟩
    · exact absurd (congrArg Prod.fst hview) hchanged
    · have hget : (lb'.hist.take lb'.histU).getLast? = some lo := by
        rw [htake, List.concat_eq_append, ← List.append_assoc, List.getLast?_append]
        rfl
      have hlo : lo.seq = (lbufTx lb).useq := hops lo (by
        rw [List.concat_eq_append]
        exact List.mem_append_right _ List.mem_cons_self)
      rw [lbufUndo, hget]
      show 0 = 0 ∧ (undoLoop lo.seq lb'.histU lb').view = lb.view
      rw [hlo]
      exact ⟨rfl, (undoLoop_view hwf'.histU htake hops hbase).trans hview⟩
  refine ⟨hundo.1, congrArg Prod.fst hundo.2, ?_⟩
  intro c hc
  obtain ⟨m, hm⟩ := markidx_letter hc
  obtain ⟨hmark, hoff⟩ := Prod.mk.inj (congrFun (congrArg Prod.snd hundo.2) m)
  rw [lbufJump, lbufJump, hm]
  simp only
  rw [hmark, hoff]

/-- A line with a mark on it is deleted and brought back. -/
theorem lbufUndo_restores_marked :
    let lb := lbufMark (lbufEdit lbufMake (some [0x61, 0x0A]) 0 0) 0x61 0 0
    let lb' := lbufEdit (lbufTx lb) none 0 1
    (lbufUndo lb').1 = 0 ∧ (lbufUndo lb').2.ln = lb.ln ∧
      ∀ c, islower c = true ∨ c = 0x27 ∨ c = 0x60 →
        lbufJump (lbufUndo lb').2 c = lbufJump lb c :=
  lbufUndo_restores
    (.cons (show Step _ (.edit (some [0x61, 0x0A]) 0 0) _ from ⟨by decide, rfl⟩)
      (.single (show Step _ (.mark 0x61 0 0) _ from ⟨trivial, rfl⟩)))
    (.single (show Step _ (.edit none 0 1) _ from ⟨by decide, rfl⟩)) (by decide) (by decide)

end Neatvi
