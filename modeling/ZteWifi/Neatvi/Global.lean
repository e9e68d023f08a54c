import Mathlib.Algebra.Group.Nat.Defs
import Mathlib.Data.Nat.Bitwise
import ZteWifi.Neatvi.Undo

/-!
# The global command of the editor

`ec_glob` marks the lines of its range and runs a command on those that match, while the command
itself edits the lines.  Whatever calls the command makes on the buffer, no line they bring is
marked, so that the marks run out: the loop ends after at most as many commands as the range has
lines, or after one if it has none.
-/

namespace Neatvi

/-! ## 1. The loop -/

/-- The buffer, and the current line `xrow`. -/
structure Ed where
  lb : Lbuf
  xrow : Nat

/-- The first loop of `ec_glob`, which marks all lines of the range but the first. -/
def globMark (lb : Lbuf) (dep beg fin : Nat) : Lbuf :=
  (List.range' (beg + 1) (fin - (beg + 1))).foldl (fun lb i => lbufGlobset lb i dep) lb

/-- The loop that goes on to the next marked line, with as many rounds as there are lines left. -/
def globSkip (dep : Nat) : Nat → Nat → Lbuf → Nat × Lbuf
  | 0, i, lb => (i, lb)
  | n + 1, i, lb =>
    match lbufGlobget lb i dep with
    | (true, lb) => (i, lb)
    | (false, lb) => globSkip dep n (i + 1) lb

/-- The main loop: the lines on which the command was run, and the state.  `sel` is whether a line is
to be visited, `cmd` is the command with whether it failed; `none` is a loop that has not ended. -/
def globLoop (sel : Line → Bool) (cmd : Ed → Bool × Ed) (dep : Nat) :
    Nat → Nat → Ed → Option (List Nat × Ed)
  | 0, _, _ => none
  | fuel + 1, i, ed =>
    match ed.lb.ln[i]? with
    | none => some ([], ed)
    | some l =>
      if sel l then
        match cmd { ed with xrow := i } with
        | (true, ed) => some ([i], ed)
        | (false, ed) =>
          let j := min i ed.xrow
          let (j, lb) := globSkip dep (ed.lb.ln.length - j) j ed.lb
          (globLoop sel cmd dep fuel j { ed with lb := lb }).map fun r => (i :: r.1, r.2)
      else
        let (j, lb) := globSkip dep (ed.lb.ln.length - i) i ed.lb
        globLoop sel cmd dep fuel j { ed with lb := lb }

/-- The last loop, which clears the marks. -/
def globClear (lb : Lbuf) (dep : Nat) : Lbuf :=
  (List.range lb.ln.length).foldl (fun lb i => (lbufGlobget lb i dep).2) lb

/-- `ec_glob` on the range from `beg` to `fin`, at depth `dep`. -/
def ecGlob (sel : Line → Bool) (cmd : Ed → Bool × Ed) (dep fuel beg fin : Nat) (ed : Ed) :
    Option (List Nat × Ed) :=
  (globLoop sel cmd dep fuel beg { ed with lb := globMark ed.lb dep beg fin }).map fun r =>
    (r.1, { r.2 with lb := globClear r.2.lb dep })

/-! ## 2. Marks of a depth -/

/-- A line is marked at a depth. -/
def globBit (dep : Nat) (g : UInt8) : Bool := g.toNat.testBit dep

/-- The number of lines that are marked at a depth. -/
def marked (dep : Nat) (lb : Lbuf) : Nat := lb.lnGlob.countP (globBit dep)

theorem globBit_iff (dep : Nat) (g : UInt8) :
    0 < g.toNat &&& 1 <<< dep ↔ globBit dep g = true := by
  rw [globBit, Nat.one_shiftLeft, Nat.and_two_pow]
  cases g.toNat.testBit dep with
  | false => simp
  | true => simp [Nat.two_pow_pos dep]

theorem globBit_set {d dep : Nat} (h : d ≠ dep) (g : UInt8) :
    globBit dep (g ||| UInt8.ofNat (1 <<< d)) = globBit dep g := by
  simp only [globBit, UInt8.toNat_or, Nat.testBit_or, UInt8.toNat_ofNat', Nat.one_shiftLeft,
    Nat.testBit_mod_two_pow, Nat.testBit_two_pow]
  simp [h]

theorem globBit_clear (d dep : Nat) (g : UInt8) :
    globBit dep (g &&& ~~~ UInt8.ofNat (1 <<< d)) = (globBit dep g && decide (d ≠ dep)) := by
  have hnot : (~~~ UInt8.ofNat (1 <<< d)).toNat = 2 ^ 8 - ((2 ^ d) % 2 ^ 8 + 1) := by
    rw [UInt8.toNat_not, UInt8.toNat_ofNat', Nat.one_shiftLeft, Nat.sub_sub, Nat.add_comm 1]
    rfl
  have hlt : (2 ^ d) % 2 ^ 8 < 2 ^ 8 := Nat.mod_lt _ (by decide)
  rw [globBit, globBit, UInt8.toNat_and, Nat.testBit_and, hnot,
    Nat.testBit_two_pow_sub_succ hlt, Nat.testBit_mod_two_pow, Nat.testBit_two_pow]
  by_cases hdep : dep < 8
  · simp [hdep]
  · have hzero : g.toNat.testBit dep = false :=
      Nat.testBit_lt_two_pow (Nat.lt_of_lt_of_le g.toNat_lt (Nat.pow_le_pow_right (by decide)
        (by omega)))
    rw [hzero, Bool.false_and, Bool.false_and]

section
variable {p : UInt8 → Bool} {f : UInt8 → UInt8}

theorem countP_modify_le (h : ∀ g, p (f g) = true → p g = true) (gs : List UInt8) (i : Nat) :
    (gs.modify i f).countP p ≤ gs.countP p := by
  induction gs generalizing i with
  | nil => cases i <;> exact Nat.le_refl _
  | cons g gs ih =>
    cases i with
    | zero =>
      rw [List.modify_zero_cons, List.countP_cons, List.countP_cons]
      split
      · next hf =>
        rw [if_pos (h g hf)]
      · omega
    | succ i =>
      rw [List.modify_succ_cons, List.countP_cons, List.countP_cons]
      have := ih i
      omega

/-- A marked line loses its mark. -/
theorem countP_modify_lt {gs : List UInt8} {i : Nat} {g : UInt8} (hg : gs[i]? = some g)
    (hp : p g = true) (hf : p (f g) = false) :
    (gs.modify i f).countP p < gs.countP p := by
  induction gs generalizing i with
  | nil => cases hg
  | cons g' gs ih =>
    cases i with
    | zero =>
      have hg' : g' = g := Option.some.inj hg
      rw [List.modify_zero_cons, List.countP_cons, List.countP_cons, hg', if_pos hp,
        if_neg (by rw [hf]; exact nofun)]
      omega
    | succ i =>
      rw [List.modify_succ_cons, List.countP_cons, List.countP_cons]
      have := ih hg
      omega

theorem countP_modify_le_succ (gs : List UInt8) (i : Nat) :
    (gs.modify i f).countP p ≤ gs.countP p + 1 := by
  induction gs generalizing i with
  | nil => cases i <;> exact Nat.zero_le _
  | cons g gs ih =>
    cases i with
    | zero =>
      rw [List.modify_zero_cons, List.countP_cons, List.countP_cons]
      split <;> split <;> omega
    | succ i =>
      rw [List.modify_succ_cons, List.countP_cons, List.countP_cons]
      have := ih i
      omega

end

theorem globBit_clear_le (d dep : Nat) (g : UInt8)
    (h : globBit dep (g &&& ~~~ UInt8.ofNat (1 <<< d)) = true) : globBit dep g = true := by
  rw [globBit_clear, Bool.and_eq_true] at h
  exact h.1

theorem lbufGlobget_marked (dep d : Nat) (lb : Lbuf) (i : Nat) :
    marked dep (lbufGlobget lb i d).2 ≤ marked dep lb :=
  countP_modify_le (globBit_clear_le d dep) lb.lnGlob i

/-- The mark that `lbuf_globget` finds is gone afterwards. -/
theorem lbufGlobget_found {dep : Nat} {lb : Lbuf} {i : Nat} (h : (lbufGlobget lb i dep).1 = true) :
    marked dep (lbufGlobget lb i dep).2 < marked dep lb := by
  have hbit := (globBit_iff dep _).mp (of_decide_eq_true h)
  cases hg : lb.lnGlob[i]? with
  | none =>
    rw [hg] at hbit
    exact absurd hbit (by rw [globBit, Option.getD_none, UInt8.toNat_zero, Nat.zero_testBit]; nofun)
  | some g =>
    rw [hg] at hbit
    refine countP_modify_lt hg hbit ?_
    rw [globBit_clear, decide_eq_false fun hne => hne rfl, Bool.and_false]

/-! ## 3. What commands do to the marks -/

theorem newGlob_marked (dep nIns pos nDel : Nat) (glob : List UInt8) :
    (newGlob nIns pos nDel glob).countP (globBit dep) ≤ glob.countP (globBit dep) := by
  have hzero : (List.replicate (nIns - nDel) (0 : UInt8)).countP (globBit dep) = 0 := by
    rw [List.countP_eq_zero]
    intro g hg
    rw [List.eq_of_mem_replicate hg, globBit, UInt8.toNat_zero, Nat.zero_testBit]
    nofun
  -- what is kept are the marks before the range, some of the range, and those behind it
  have hsub : (glob.take (pos + min nIns nDel) ++ glob.drop (pos + nDel)).Sublist glob := by
    have hsplit := List.take_append_drop (pos + min nIns nDel) glob
    conv_rhs => rw [← hsplit]
    refine List.Sublist.append_left ?_ _
    rw [show pos + nDel = pos + min nIns nDel + (nDel - min nIns nDel) by omega, ← List.drop_drop]
    exact List.drop_sublist _ _
  have hcount := hsub.countP_le (p := globBit dep)
  rw [List.countP_append] at hcount
  rw [newGlob, List.countP_append, List.countP_append, hzero]
  omega

theorem lbufReplace_marked (dep : Nat) (lb : Lbuf) (s : Option (List UInt8))
    (slen pos nDel : Nat) : marked dep (lbufReplace lb s slen pos nDel) ≤ marked dep lb := by
  show marked dep (lbufReplace lb s slen pos nDel).unmarked ≤ marked dep lb
  rw [lbufReplace_unmarked]
  exact newGlob_marked dep _ pos nDel lb.lnGlob

theorem lbufOpt_marked (dep : Nat) (lb : Lbuf) (s : Option (List UInt8)) (slen pos nDel : Nat) :
    marked dep (lbufOpt lb s slen pos nDel) = marked dep lb := by
  rw [lbufOpt]
  split
  · split <;> rfl
  · rfl

theorem lbufEditraw_marked (dep : Nat) (lb : Lbuf) (s : Option (List UInt8))
    (slen beg fin : Nat) : marked dep (lbufEditraw lb s slen beg fin) ≤ marked dep lb := by
  rw [lbufEditraw]
  split
  · exact Nat.le_refl _
  · refine Nat.le_trans (lbufReplace_marked dep _ s slen _ _) ?_
    rw [lbufOpt_marked]

theorem undoOpt_marked (dep : Nat) (lb : Lbuf) (lo : Lopt) :
    marked dep (undoOpt lb lo) ≤ marked dep lb := by
  show marked dep (undoOpt lb lo).unmarked ≤ marked dep lb
  rw [undoOpt_unmarked]
  exact lbufReplace_marked dep lb lo.del lo.delLen lo.pos lo.nIns

theorem redoOpt_marked (dep : Nat) (lb : Lbuf) (lo : Lopt) :
    marked dep (redoOpt lb lo) ≤ marked dep lb :=
  lbufReplace_marked dep lb lo.ins lo.insLen lo.pos lo.nDel

theorem undoLoop_marked (dep useq u : Nat) (lb : Lbuf) :
    marked dep (undoLoop useq u lb) ≤ marked dep lb := by
  induction u generalizing lb with
  | zero => exact Nat.le_refl _
  | succ u ih =>
    rw [undoLoop]
    split
    · split
      · exact Nat.le_trans (ih _) (undoOpt_marked dep { lb with histU := u } _)
      · exact Nat.le_refl _
    · exact Nat.le_refl _

theorem redoLoop_marked (dep useq : Nat) (los : List Lopt) (lb : Lbuf) :
    marked dep (redoLoop useq los lb) ≤ marked dep lb := by
  induction los generalizing lb with
  | nil => exact Nat.le_refl _
  | cons lo los ih =>
    rw [redoLoop]
    split
    · exact Nat.le_trans (ih _) (redoOpt_marked dep { lb with histU := lb.histU + 1 } lo)
    · exact Nat.le_refl _

/-- No call marks a line, but the one that is there for it. -/
theorem exec_marked {dep : Nat} {op : Op} (h : ∀ pos, op ≠ .globset pos dep) (lb : Lbuf) :
    marked dep (exec lb op) ≤ marked dep lb := by
  cases op with
  | edit s beg fin => exact lbufEditraw_marked dep lb _ _ beg fin
  | rd rs beg fin =>
    show marked dep (lbufRd lb rs beg fin).2 ≤ marked dep lb
    rw [lbufRd]
    split
    · exact lbufEditraw_marked dep lb _ _ beg fin
    · exact Nat.le_refl _
  | undo =>
    show marked dep (lbufUndo lb).2 ≤ marked dep lb
    rw [lbufUndo]
    split
    · exact Nat.le_refl _
    · exact undoLoop_marked dep _ _ lb
  | redo =>
    show marked dep (lbufRedo lb).2 ≤ marked dep lb
    rw [lbufRedo]
    split
    · exact Nat.le_refl _
    · exact redoLoop_marked dep _ _ lb
  | tx => exact Nat.le_refl _
  | saved clear => cases clear <;> exact Nat.le_refl _
  | mark c pos off =>
    show marked dep (lbufMark lb c pos off).unmarked ≤ marked dep lb
    rw [lbufMark_unmarked]
    exact Nat.le_refl _
  | globset pos d =>
    have hd : d ≠ dep := fun heq => h pos (by rw [heq])
    refine countP_modify_le ?_ lb.lnGlob pos
    intro g hg
    rwa [globBit_set hd] at hg
  | globget pos d => exact lbufGlobget_marked dep d lb pos

/-- A command that works on the buffer by clean calls, and leaves the marks of the depth alone but
for those of lines that go. -/
def Leaves (dep : Nat) (cmd : Ed → Bool × Ed) : Prop :=
  ∀ ed : Ed, ed.lb.Wf → ∃ ops, Run Step ed.lb ops (cmd ed).2.lb ∧
    ∀ op ∈ ops, ∀ pos, op ≠ .globset pos dep

theorem Leaves.run {dep : Nat} {cmd : Ed → Bool × Ed} (h : Leaves dep cmd) {ed : Ed}
    (hwf : ed.lb.Wf) : (cmd ed).2.lb.Wf ∧ marked dep (cmd ed).2.lb ≤ marked dep ed.lb := by
  obtain ⟨ops, hrun, hops⟩ := h ed hwf
  refine ⟨(run_timeline hrun hwf).1, ?_⟩
  clear hwf
  generalize (cmd ed).2.lb = lb' at hrun
  generalize ed.lb = lb at hrun
  induction hrun with
  | nil lb => exact Nat.le_refl _
  | cons hstep _ ih =>
    obtain ⟨-, rfl⟩ := hstep
    exact Nat.le_trans (ih fun op hop => hops op (List.mem_cons_of_mem _ hop))
      (exec_marked (hops _ List.mem_cons_self) _)

/-- `ex_region` of an empty location: the current line. -/
def exRegionHere (ed : Ed) : Nat × Nat :=
  (ed.xrow, if ed.xrow = ed.lb.ln.length then ed.xrow else ed.xrow + 1)

/-- `ec_delete` of the current line. -/
def ecDelete (ed : Ed) : Bool × Ed :=
  let (beg, fin) := exRegionHere ed
  (false, ⟨lbufEdit ed.lb none beg fin, beg⟩)

theorem separated_take_drop_one (ls : List Line) (i : Nat) : Separated ((ls.drop i).take 1) := by
  cases ls.drop i with
  | nil => exact nofun
  | cons l ls => exact nofun

theorem ecDelete_leaves (dep : Nat) : Leaves dep ecDelete := by
  intro ed _
  refine ⟨[.edit none (exRegionHere ed).1 (exRegionHere ed).2], .single ⟨?_, rfl⟩, ?_⟩
  · show Replaceable _ _ _
    rw [Replaceable, exRegionHere]
    split
    · refine ⟨Nat.le_refl _, ?_⟩
      rw [Nat.sub_self]
      exact nofun
    · rw [Nat.add_sub_cancel_left]
      exact ⟨Nat.le_succ _, separated_take_drop_one _ _⟩
  · intro op hop pos
    rw [List.mem_singleton.mp hop]
    exact nofun

/-! ## 4. The loop ends -/

/-- What finding the next marked line does to the buffer: a mark is used up, or the lines are. -/
theorem globSkip_spec (dep n : Nat) {i : Nat} {lb : Lbuf} (hwf : lb.Wf)
    (hn : lb.ln.length ≤ i + n) :
    (globSkip dep n i lb).2.Wf ∧ (globSkip dep n i lb).2.ln = lb.ln ∧
      marked dep (globSkip dep n i lb).2 ≤ marked dep lb ∧
      (marked dep (globSkip dep n i lb).2 < marked dep lb ∨
        lb.ln.length ≤ (globSkip dep n i lb).1) := by
  induction n generalizing i lb with
  | zero => exact ⟨hwf, rfl, Nat.le_refl _, .inr hn⟩
  | succ n ih =>
    have hle := lbufGlobget_marked dep dep lb i
    have hfound : (lbufGlobget lb i dep).1 = true →
        marked dep (lbufGlobget lb i dep).2 < marked dep lb := lbufGlobget_found
    have hwf' : (lbufGlobget lb i dep).2.Wf := globs_wf hwf i _
    have hln : (lbufGlobget lb i dep).2.ln = lb.ln := rfl
    rw [globSkip]
    generalize lbufGlobget lb i dep = r at hle hfound hwf' hln ⊢
    obtain ⟨_ | _, lb'⟩ := r
    · obtain ⟨hw, hl, hm, hor⟩ := ih hwf' (show lb'.ln.length ≤ i + 1 + n by rw [hln]; omega)
      refine ⟨hw, hl.trans hln, Nat.le_trans hm hle, ?_⟩
      rcases hor with hlt | hend
      · exact .inl (Nat.lt_of_lt_of_le hlt hle)
      · exact .inr (by rw [← hln]; exact hend)
    · exact ⟨hwf', hln, hle, .inl (hfound rfl)⟩

section
variable {sel : Line → Bool} {cmd : Ed → Bool × Ed} {dep : Nat}

/-- Behind the last line the loop ends. -/
theorem globLoop_end {fuel i : Nat} {ed : Ed} (h : ed.lb.ln.length ≤ i) :
    globLoop sel cmd dep (fuel + 1) i ed = some ([], ed) := by
  rw [globLoop, List.getElem?_eq_none h]

/-- With rounds for all the marks and two more the loop ends, and every command but the first has
used up a mark. -/
theorem globLoop_spec (hcmd : Leaves dep cmd) (fuel : Nat) {i : Nat} {ed : Ed} (hwf : ed.lb.Wf)
    (hfuel : marked dep ed.lb + 2 ≤ fuel) :
    ∃ r, globLoop sel cmd dep fuel i ed = some r ∧ r.1.length ≤ marked dep ed.lb + 1 ∧
      r.2.lb.Wf := by
  induction fuel generalizing i ed with
  | zero => omega
  | succ fuel ih =>
    -- the rest of the loop, behind the next marked line
    have hrest (ed' : Ed) (j : Nat) (hwf' : ed'.lb.Wf)
        (hm : marked dep ed'.lb ≤ marked dep ed.lb) :
        ∃ r, globLoop sel cmd dep fuel (globSkip dep (ed'.lb.ln.length - j) j ed'.lb).1
            { ed' with lb := (globSkip dep (ed'.lb.ln.length - j) j ed'.lb).2 } = some r ∧
          r.1.length ≤ marked dep ed.lb ∧ r.2.lb.Wf := by
      obtain ⟨hw, hl, hle, hor⟩ := globSkip_spec dep (ed'.lb.ln.length - j) (i := j) hwf' (by omega)
      generalize globSkip dep (ed'.lb.ln.length - j) j ed'.lb = t at hw hl hle hor
      obtain ⟨j', lb'⟩ := t
      rcases hor with hlt | hend
      · replace hlt : marked dep lb' < marked dep ed'.lb := hlt
        obtain ⟨r, hr, hlen, hwr⟩ :=
          @ih j' { ed' with lb := lb' } hw (show marked dep lb' + 2 ≤ fuel by omega)
        exact ⟨r, hr, Nat.le_trans hlen (show marked dep lb' + 1 ≤ marked dep ed.lb by omega), hwr⟩
      · obtain ⟨f, rfl⟩ := Nat.exists_eq_succ_of_ne_zero (show fuel ≠ 0 by omega)
        exact ⟨([], { ed' with lb := lb' }), globLoop_end (by
          show lb'.ln.length ≤ j'
          rw [hl]
          exact hend), Nat.zero_le _, hw⟩
    rw [globLoop]
    split
    · exact ⟨_, rfl, Nat.zero_le _, hwf⟩
    · split
      · obtain ⟨hwc, hmc⟩ :=
          hcmd.run (show Lbuf.Wf (Ed.lb { ed with xrow := i }) from hwf)
        generalize cmd { ed with xrow := i } = c at hwc hmc
        obtain ⟨_ | _, ed'⟩ := c
        · obtain ⟨r, hr, hlen, hwr⟩ := hrest ed' (min i ed'.xrow) hwc hmc
          refine ⟨(i :: r.1, r.2), ?_, Nat.succ_le_succ hlen, hwr⟩
          exact congrArg (Option.map fun r : List Nat × Ed => (i :: r.1, r.2)) hr
        · exact ⟨([i], ed'), rfl, Nat.succ_le_succ (Nat.zero_le _), hwc⟩
      · obtain ⟨r, hr, hlen, hwr⟩ := hrest ed i hwf (Nat.le_refl _)
        exact ⟨r, hr, Nat.le_succ_of_le hlen, hwr⟩

/-- The lines that are marked at the start. -/
theorem globMark_spec (dep beg fin : Nat) {lb : Lbuf} (hwf : lb.Wf) :
    (globMark lb dep beg fin).Wf ∧
      marked dep (globMark lb dep beg fin) ≤ marked dep lb + (fin - (beg + 1)) := by
  have hfold (is : List Nat) (lb : Lbuf) (hwf : lb.Wf) :
      (is.foldl (fun lb i => lbufGlobset lb i dep) lb).Wf ∧
        marked dep (is.foldl (fun lb i => lbufGlobset lb i dep) lb) ≤ marked dep lb + is.length := by
    induction is generalizing lb with
    | nil => exact ⟨hwf, Nat.le_refl _⟩
    | cons i is ih =>
      obtain ⟨hw, hm⟩ := ih (lbufGlobset lb i dep) (globs_wf hwf i _)
      have hone : marked dep (lbufGlobset lb i dep) ≤ marked dep lb + 1 :=
        countP_modify_le_succ lb.lnGlob i
      refine ⟨hw, Nat.le_trans hm ?_⟩
      rw [List.length_cons]
      omega
  have hrange := hfold (List.range' (beg + 1) (fin - (beg + 1))) lb hwf
  rw [List.length_range'] at hrange
  exact hrange

/-- No mark is left at the end. -/
theorem globClear_marked (dep : Nat) {lb : Lbuf} (hwf : lb.Wf) :
    marked dep (globClear lb dep) = 0 := by
  have hfold (n : Nat) :
      let lb' := (List.range n).foldl (fun lb i => (lbufGlobget lb i dep).2) lb
      lb'.lnGlob.length = lb.lnGlob.length ∧
        ∀ i g, i < n → lb'.lnGlob[i]? = some g → globBit dep g = false := by
    induction n with
    | zero => exact ⟨rfl, fun i g hi => absurd hi (Nat.not_lt_zero i)⟩
    | succ n ih =>
      rw [List.range_succ, List.foldl_append]
      obtain ⟨hlen, hclear⟩ := ih
      refine ⟨(List.length_modify ..).trans hlen, ?_⟩
      intro i g hi hg
      replace hg : (List.modify _ n _)[i]? = some g := hg
      rw [List.getElem?_modify] at hg
      obtain ⟨g', hg', rfl⟩ := Option.map_eq_some_iff.mp hg
      by_cases hin : n = i
      · rw [if_pos hin, globBit_clear, decide_eq_false fun hne => hne rfl, Bool.and_false]
      · rw [if_neg hin]
        exact hclear i g' (by omega) hg'
  obtain ⟨hlen, hclear⟩ := hfold lb.ln.length
  rw [marked, List.countP_eq_zero]
  intro g hg
  obtain ⟨i, hi, rfl⟩ := List.getElem_of_mem hg
  rw [Bool.not_eq_true]
  refine hclear i _ ?_ (List.getElem?_eq_getElem hi)
  rw [← hwf.lined.glob, ← hlen]
  exact hi

/-- Depths from 8 on have no marks. -/
theorem marked_deep (h : 8 ≤ dep) (lb : Lbuf) : marked dep lb = 0 := by
  rw [marked, List.countP_eq_zero]
  intro g _
  rw [globBit, Nat.testBit_lt_two_pow (Nat.lt_of_lt_of_le g.toNat_lt
    (Nat.pow_le_pow_right (by decide) h))]
  exact nofun

/-- Whatever clean calls its command makes, the global command ends.  It runs the command at most
once for each line of its range (once where the range is empty, or where it is nested too deep to
mark lines), and leaves no mark behind. -/
theorem ecGlob_ends (sel : Line → Bool) (hcmd : Leaves dep cmd) {ed : Ed} (hwf : ed.lb.Wf)
    (hclear : marked dep ed.lb = 0) (beg fin : Nat) :
    ∃ rows ed', ecGlob sel cmd dep (fin - (beg + 1) + 2) beg fin ed = some (rows, ed') ∧
      rows.length ≤ (if dep < 8 then fin - (beg + 1) else 0) + 1 ∧ marked dep ed'.lb = 0 := by
  obtain ⟨hwm, hmarks⟩ := globMark_spec dep beg fin hwf
  rw [hclear, Nat.zero_add] at hmarks
  obtain ⟨r, hr, hlen, hwr⟩ := @globLoop_spec sel cmd dep hcmd (fin - (beg + 1) + 2) beg
    { ed with lb := globMark ed.lb dep beg fin } hwm (Nat.add_le_add_right hmarks 2)
  refine ⟨r.1, { r.2 with lb := globClear r.2.lb dep }, ?_, ?_, globClear_marked dep hwr⟩
  · rw [ecGlob, hr]
    rfl
  · refine Nat.le_trans hlen (Nat.succ_le_succ ?_)
    split
    · exact hmarks
    · next hdeep => exact Nat.le_of_eq (marked_deep (by omega) _)

end

/-- All lines of a file are deleted. -/
theorem ecGlob_ends_delete :
    ∃ rows ed', ecGlob (fun _ => true) ecDelete 1 (2 - (0 + 1) + 2) 0 2
        ⟨(lbufRd lbufMake [.data [0x61, 0x0A, 0x62]] 0 0).2, 0⟩ = some (rows, ed') ∧
      rows.length ≤ (if 1 < 8 then 2 - (0 + 1) else 0) + 1 ∧ marked 1 ed'.lb = 0 :=
  ecGlob_ends _ (ecDelete_leaves 1)
    (lbufRd_edit lbufMake_wf ⟨Nat.le_refl 0, nofun⟩ (by decide)).1 (by decide) 0 2

end Neatvi
