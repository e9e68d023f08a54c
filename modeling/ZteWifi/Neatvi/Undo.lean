import Mathlib.Data.List.TakeWhile
import ZteWifi.Lib.Runs
import ZteWifi.Lib.Splice
import ZteWifi.Lib.Timeline
import ZteWifi.Neatvi.Files
import ZteWifi.Neatvi.Lines

/-!
# Undo and redo of the line buffer

The history of a line buffer is a journal of patches: `lbuf_edit` records one or amends the last,
`lbuf_undo` and `lbuf_redo` walk over a whole change set.  Along every run the lines of the buffer
therefore behave as a timeline, as long as the replaced lines could be told apart in their text.
-/

namespace Neatvi

/-! ## 1. The history as a journal -/

/-- The text that `lbuf_replace` sees. -/
def textOf (s : Option (List UInt8)) (slen : Nat) : List UInt8 := (s.getD []).take slen

namespace Lopt

/-- The patch of an operation: its texts, cut into lines. -/
def patch (lo : Lopt) : Patch Line :=
  ⟨lo.pos, linesOf (textOf lo.del lo.delLen), linesOf (textOf lo.ins lo.insLen)⟩

def change (lo : Lopt) : Change (List Line) := (lo.seq, lo.patch.equiv)

/-- The counts of an operation are those of its texts. -/
structure Counted (lo : Lopt) : Prop where
  ins : lo.nIns = lo.patch.ins.length
  del : lo.nDel = lo.patch.del.length

/-- The operation without the cursor and the marks saved with it. -/
def unmarked (lo : Lopt) : Lopt :=
  { lo with posOff := 0, mark := fun _ => -1, markOff := fun _ => 0 }

theorem counted_unmarked {lo : Lopt} : lo.unmarked.Counted ↔ lo.Counted :=
  ⟨fun h => ⟨h.ins, h.del⟩, fun h => ⟨h.ins, h.del⟩⟩

end Lopt

namespace Lbuf

def journal (lb : Lbuf) : Journal (List Line) :=
  ⟨(lb.hist.take lb.histU).reverse.map Lopt.change, lb.ln,
    (lb.hist.drop lb.histU).map Lopt.change⟩

/-- The lines, with the lines that undo and redo lead to. -/
def timeline (lb : Lbuf) : Timeline (List Line) := lb.journal.timeline

/-- The buffer without its marks. -/
def unmarked (lb : Lbuf) : Lbuf := { lb with mark := fun _ => -1, markOff := fun _ => 0 }

/-- The lines of the buffer are proper, and each has its global mark. -/
structure Lined (lb : Lbuf) : Prop where
  proper : ∀ l ∈ lb.ln, l.Proper
  glob : lb.lnGlob.length = lb.ln.length

/-- What the operations keep. -/
structure Wf (lb : Lbuf) : Prop where
  histU : lb.histU ≤ lb.hist.length
  lined : lb.Lined
  counted : ∀ lo ∈ lb.hist, lo.Counted
  sound : lb.journal.Sound

/-- The marks are not part of it. -/
theorem wf_of_unmarked {lb lb' : Lbuf} (h : lb'.unmarked = lb.unmarked) (hwf : lb.Wf) :
    lb'.Wf := by
  have hwf' : lb'.unmarked.Wf := by
    rw [h]
    exact ⟨hwf.histU, ⟨hwf.lined.proper, hwf.lined.glob⟩, hwf.counted, hwf.sound⟩
  exact ⟨hwf'.histU, ⟨hwf'.lined.proper, hwf'.lined.glob⟩, hwf'.counted, hwf'.sound⟩

theorem journal_of_unmarked {lb lb' : Lbuf} (h : lb'.unmarked = lb.unmarked) :
    lb'.journal = lb.journal := by
  show lb'.unmarked.journal = lb.unmarked.journal
  rw [h]

end Lbuf

/-! ## 2. What the functions do apart from the marks -/

theorem lbufMark_unmarked (lb : Lbuf) (c : UInt8) (pos off : Int) :
    (lbufMark lb c pos off).unmarked = lb.unmarked := by
  rw [lbufMark]
  split <;> rfl

theorem lbufLoadmark_unmarked (lb : Lbuf) (lo : Lopt) (m : Fin nmarks) :
    (lbufLoadmark lb lo m).unmarked = lb.unmarked := by
  rw [lbufLoadmark]
  split <;> rfl

theorem loadmarks_unmarked (ms : List (Fin nmarks)) (lb : Lbuf) (lo : Lopt) :
    (ms.foldl (fun lb m => lbufLoadmark lb lo m) lb).unmarked = lb.unmarked := by
  induction ms generalizing lb with
  | nil => rfl
  | cons m ms ih => exact (ih _).trans (lbufLoadmark_unmarked lb lo m)

theorem lbufSavemark_unmarked (lb : Lbuf) (lo : Lopt) (m : Fin nmarks) :
    (lbufSavemark lb lo m).unmarked = lo.unmarked := by
  rw [lbufSavemark]
  split <;> rfl

theorem savemarks_unmarked (ms : List (Fin nmarks)) (lb : Lbuf) (lo : Lopt) :
    (ms.foldl (lbufSavemark lb) lo).unmarked = lo.unmarked := by
  induction ms generalizing lo with
  | nil => rfl
  | cons m ms ih => exact (ih _).trans (lbufSavemark_unmarked lb lo m)

theorem lbufSavepos_unmarked (lb : Lbuf) (lo : Lopt) :
    (lbufSavepos lb lo).1.unmarked = lb.unmarked ∧
      (lbufSavepos lb lo).2.unmarked = lo.unmarked := by
  refine ⟨rfl, ?_⟩
  rw [lbufSavepos]
  split <;> rfl

/-- The global marks behind a replacement. -/
def newGlob (nIns pos nDel : Nat) (glob : List UInt8) : List UInt8 :=
  glob.take (pos + min nIns nDel) ++ List.replicate (nIns - nDel) 0 ++ glob.drop (pos + nDel)

theorem lbufReplace_unmarked (lb : Lbuf) (s : Option (List UInt8)) (slen pos nDel : Nat) :
    (lbufReplace lb s slen pos nDel).unmarked =
      { lb.unmarked with
        ln := splice pos nDel (linesOf (textOf s slen)) lb.ln
        lnGlob := newGlob (linecount (textOf s slen)) pos nDel lb.lnGlob } := by
  rw [lbufReplace, lbufMark_unmarked, lbufMark_unmarked]
  rfl

theorem lbufReplace_ln (lb : Lbuf) (s : Option (List UInt8)) (slen pos nDel : Nat) :
    (lbufReplace lb s slen pos nDel).ln = splice pos nDel (linesOf (textOf s slen)) lb.ln :=
  congrArg Lbuf.ln (lbufReplace_unmarked lb s slen pos nDel)

theorem newGlob_length {nIns pos nDel : Nat} {glob : List UInt8} (h : pos + nDel ≤ glob.length) :
    (newGlob nIns pos nDel glob).length + nDel = glob.length + nIns := by
  rw [newGlob, List.length_append, List.length_append, List.length_take, List.length_replicate,
    List.length_drop]
  omega

theorem undoOpt_unmarked (lb : Lbuf) (lo : Lopt) :
    (undoOpt lb lo).unmarked = (lbufReplace lb lo.del lo.delLen lo.pos lo.nIns).unmarked := by
  rw [undoOpt, loadmarks_unmarked]
  rfl

theorem redoOpt_unmarked (lb : Lbuf) (lo : Lopt) :
    (redoOpt lb lo).unmarked = (lbufReplace lb lo.ins lo.insLen lo.pos lo.nDel).unmarked := rfl

/-- The history and the numbers that go with it. -/
def Lbuf.record (lb : Lbuf) : List Lopt × Nat × Nat × Nat × Nat :=
  (lb.hist, lb.histU, lb.useq, lb.useqZero, lb.useqLast)

theorem lbufReplace_record (lb : Lbuf) (s : Option (List UInt8)) (slen pos nDel : Nat) :
    (lbufReplace lb s slen pos nDel).record = lb.record := by
  show (lbufReplace lb s slen pos nDel).unmarked.record = lb.record
  rw [lbufReplace_unmarked]
  rfl

theorem undoOpt_record (lb : Lbuf) (lo : Lopt) : (undoOpt lb lo).record = lb.record := by
  show (undoOpt lb lo).unmarked.record = lb.record
  rw [undoOpt_unmarked]
  exact lbufReplace_record lb lo.del lo.delLen lo.pos lo.nIns

theorem redoOpt_record (lb : Lbuf) (lo : Lopt) : (redoOpt lb lo).record = lb.record :=
  lbufReplace_record lb lo.ins lo.insLen lo.pos lo.nDel

theorem splice_proper {ls : List Line} (h : ∀ l ∈ ls, l.Proper) (pos n : Nat) (s : List UInt8) :
    ∀ l ∈ splice pos n (linesOf s) ls, l.Proper := by
  intro l hl
  rcases List.mem_append.mp hl with hl | hl
  · rcases List.mem_append.mp hl with hl | hl
    · exact h l (List.mem_of_mem_take hl)
    · exact linesOf_proper l hl
  · exact h l (List.mem_of_mem_drop hl)

/-! ## 3. Undo and redo -/

/-- An operation at place `u` of the history, seen from both sides. -/
theorem take_drop_of_getElem? {hist : List Lopt} {u : Nat} {lo : Lopt} (h : hist[u]? = some lo) :
    hist.take (u + 1) = hist.take u ++ [lo] ∧ hist.drop u = lo :: hist.drop (u + 1) := by
  obtain ⟨hu, rfl⟩ := List.getElem?_eq_some_iff.mp h
  exact ⟨(List.take_append_getElem hu).symm, List.drop_eq_getElem_cons hu⟩

theorem undoOpt_journal {lb : Lbuf} {u : Nat} {lo : Lopt} (hlo : lb.hist[u]? = some lo)
    (hc : lo.Counted) :
    (undoOpt { lb with histU := u } lo).journal =
      ⟨(lb.hist.take u).reverse.map Lopt.change, lo.change.2.symm lb.ln,
        lo.change :: (lb.hist.drop (u + 1)).map Lopt.change⟩ := by
  have hj : (undoOpt { lb with histU := u } lo).journal =
      (lbufReplace { lb with histU := u } lo.del lo.delLen lo.pos lo.nIns).journal :=
    Lbuf.journal_of_unmarked (undoOpt_unmarked _ lo)
  have hr : (lbufReplace { lb with histU := u } lo.del lo.delLen lo.pos lo.nIns).journal =
      Lbuf.journal { lb with histU := u, ln := lo.change.2.symm lb.ln } := by
    show (lbufReplace { lb with histU := u } lo.del lo.delLen lo.pos lo.nIns).unmarked.journal = _
    rw [lbufReplace_unmarked, hc.ins]
    rfl
  rw [hj, hr, Lbuf.journal, (take_drop_of_getElem? hlo).2]
  rfl

/-- The loop of `lbuf_undo` takes back a set of the journal. -/
theorem undoLoop_journal (useq : Nat) {u : Nat} {lb : Lbuf} (hu : lb.histU = u)
    (hle : u ≤ lb.hist.length) (hc : ∀ lo ∈ lb.hist, lo.Counted) :
    (undoLoop useq u lb).journal =
      Journal.rewind useq lb.journal.done lb.journal.now lb.journal.todo := by
  induction u generalizing lb with
  | zero =>
    rw [undoLoop, Lbuf.journal, hu]
    rfl
  | succ u ih =>
    obtain ⟨lo, hlo⟩ : ∃ lo, lb.hist[u]? = some lo := ⟨lb.hist[u], List.getElem?_eq_getElem hle⟩
    have hdone : lb.journal.done = lo.change :: (lb.hist.take u).reverse.map Lopt.change := by
      rw [Lbuf.journal, hu, (take_drop_of_getElem? hlo).1, List.reverse_append]
      rfl
    have htodo : lb.journal.todo = (lb.hist.drop (u + 1)).map Lopt.change := by
      rw [Lbuf.journal, hu]
    rw [undoLoop, hlo, hdone, htodo, Journal.rewind]
    simp only
    by_cases hq : lo.seq = useq
    · have hrecord := undoOpt_record { lb with histU := u } lo
      have hhist : (undoOpt { lb with histU := u } lo).hist = lb.hist := congrArg (·.1) hrecord
      have hhistU : (undoOpt { lb with histU := u } lo).histU = u := congrArg (·.2.1) hrecord
      rw [if_pos hq, if_pos (show lo.change.1 = useq from hq),
        ih hhistU (by rw [hhist]; omega) (by rwa [hhist]),
        undoOpt_journal hlo (hc lo (List.mem_of_getElem? hlo))]
      rfl
    · rw [if_neg hq, if_neg (show lo.change.1 ≠ useq from hq), Lbuf.journal, hu,
        (take_drop_of_getElem? hlo).1, List.reverse_append]
      rfl

theorem redoOpt_journal {lb : Lbuf} {lo : Lopt} {los : List Lopt}
    (hlos : lb.hist.drop lb.histU = lo :: los) (hc : lo.Counted) :
    (redoOpt { lb with histU := lb.histU + 1 } lo).journal =
      ⟨lo.change :: lb.journal.done, lo.change.2 lb.ln, los.map Lopt.change⟩ := by
  have hget : lb.hist[lb.histU]? = some lo := by
    rw [← List.head?_drop, hlos]
    rfl
  have hdrop := (take_drop_of_getElem? hget).2
  rw [hlos] at hdrop
  have hr : (redoOpt { lb with histU := lb.histU + 1 } lo).journal =
      Lbuf.journal { lb with histU := lb.histU + 1, ln := lo.change.2 lb.ln } := by
    show (redoOpt { lb with histU := lb.histU + 1 } lo).unmarked.journal = _
    rw [redoOpt_unmarked, lbufReplace_unmarked, hc.del]
    rfl
  rw [hr, Lbuf.journal, (take_drop_of_getElem? hget).1, (List.cons.inj hdrop).2,
    List.reverse_append]
  rfl

/-- The loop of `lbuf_redo` goes back in the journal read the other way. -/
theorem redoLoop_journal (useq : Nat) {los : List Lopt} {lb : Lbuf}
    (hlos : lb.hist.drop lb.histU = los) (hc : ∀ lo ∈ lb.hist, lo.Counted) :
    (redoLoop useq los lb).journal =
      (Journal.rewind useq lb.journal.flip.done lb.journal.flip.now lb.journal.flip.todo).flip := by
  induction los generalizing lb with
  | nil =>
    have hflip : lb.journal.flip = ⟨[], lb.ln, lb.journal.done.map Change.symm⟩ := by
      rw [Journal.flip, Lbuf.journal, hlos]
      rfl
    rw [redoLoop, hflip, Journal.rewind]
    exact (Journal.flip_flip lb.journal).symm.trans (congrArg Journal.flip hflip)
  | cons lo los ih =>
    have hflip : lb.journal.flip = ⟨lo.change.symm :: (los.map Lopt.change).map Change.symm, lb.ln,
        lb.journal.done.map Change.symm⟩ := by
      rw [Journal.flip, Lbuf.journal, hlos]
      rfl
    have hlo : lo ∈ lb.hist := by
      apply List.mem_of_mem_drop
      rw [hlos]
      exact List.mem_cons_self
    rw [redoLoop]
    by_cases hq : lo.seq = useq
    · have hrecord := redoOpt_record { lb with histU := lb.histU + 1 } lo
      have hhist : (redoOpt { lb with histU := lb.histU + 1 } lo).hist = lb.hist :=
        congrArg (·.1) hrecord
      have hhistU : (redoOpt { lb with histU := lb.histU + 1 } lo).histU = lb.histU + 1 :=
        congrArg (·.2.1) hrecord
      have hnext : (redoOpt { lb with histU := lb.histU + 1 } lo).hist.drop
          (redoOpt { lb with histU := lb.histU + 1 } lo).histU = los := by
        rw [hhist, hhistU, ← List.tail_drop, hlos]
        rfl
      rw [if_pos hq, ih hnext (by rwa [hhist]), redoOpt_journal hlos (hc lo hlo), hflip,
        Journal.rewind, if_pos (show lo.change.symm.1 = useq from hq)]
      rfl
    · rw [if_neg hq, hflip, Journal.rewind, if_neg (show lo.change.symm.1 ≠ useq from hq), ← hflip,
        Journal.flip_flip]

section
variable {lb : Lbuf}

/-- There is something to undo as long as the journal has changes that were made. -/
theorem lbufUndo_fst (lb : Lbuf) : (lbufUndo lb).1 = if lb.journal.done = [] then 1 else 0 := by
  rw [lbufUndo, Lbuf.journal]
  rcases List.eq_nil_or_concat (lb.hist.take lb.histU) with h | ⟨init, lo, h⟩
  · rw [h]
    rfl
  · rw [h, List.concat_eq_append, List.getLast?_append, List.reverse_append]
    rfl

theorem lbufRedo_fst (lb : Lbuf) : (lbufRedo lb).1 = if lb.journal.todo = [] then 1 else 0 := by
  rw [lbufRedo, Lbuf.journal]
  cases h : lb.hist.drop lb.histU <;> rfl

theorem lbufUndo_journal (h : lb.Wf) : (lbufUndo lb).2.journal = lb.journal.undo := by
  rcases List.eq_nil_or_concat (lb.hist.take lb.histU) with hnil | ⟨init, lo, hlast⟩
  · rw [Journal.undo_nil (by rw [Lbuf.journal, hnil]; rfl), lbufUndo, hnil]
    rfl
  · rw [List.concat_eq_append] at hlast
    have hdone : lb.journal.done = lo.change :: init.reverse.map Lopt.change := by
      rw [Lbuf.journal, hlast, List.reverse_append]
      rfl
    rw [lbufUndo, hlast, List.getLast?_append, Journal.undo, hdone]
    exact (undoLoop_journal lo.seq rfl h.histU h.counted).trans (by rw [hdone]; rfl)

theorem lbufRedo_journal (h : lb.Wf) : (lbufRedo lb).2.journal = lb.journal.redo := by
  rw [lbufRedo, Journal.redo]
  cases hdrop : lb.hist.drop lb.histU with
  | nil =>
    rw [Journal.undo_nil (by rw [Journal.flip, Lbuf.journal, hdrop]; rfl), Journal.flip_flip]
  | cons lo los =>
    refine (redoLoop_journal lo.seq hdrop h.counted).trans ?_
    rw [Journal.undo, Journal.flip, Lbuf.journal, hdrop]
    rfl

end

/-! ## 4. What the operations keep -/

theorem lined_of_unmarked {lb lb' : Lbuf} (h : lb'.unmarked = lb.unmarked) (hl : lb.Lined) :
    lb'.Lined := by
  have hl' : lb'.unmarked.Lined := by
    rw [h]
    exact ⟨hl.proper, hl.glob⟩
  exact ⟨hl'.proper, hl'.glob⟩

theorem lbufReplace_lined {lb : Lbuf} (hl : lb.Lined) (s : Option (List UInt8)) (slen : Nat)
    {pos nDel : Nat} (hle : pos + nDel ≤ lb.ln.length) :
    (lbufReplace lb s slen pos nDel).Lined := by
  have hlen := splice_length hle (linesOf (textOf s slen))
  have hglob : (newGlob (linecount (textOf s slen)) pos nDel lb.lnGlob).length + nDel =
      lb.lnGlob.length + linecount (textOf s slen) := newGlob_length (hl.glob ▸ hle)
  rw [linesOf_length] at hlen
  rw [hl.glob] at hglob
  have hl' : (lbufReplace lb s slen pos nDel).unmarked.Lined := by
    rw [lbufReplace_unmarked]
    refine ⟨splice_proper hl.proper pos nDel _, ?_⟩
    show (newGlob _ pos nDel lb.lnGlob).length = (splice pos nDel _ lb.ln).length
    omega
  exact ⟨hl'.proper, hl'.glob⟩

theorem undoLoop_lined (useq : Nat) {u : Nat} {lb : Lbuf} (hu : lb.histU = u)
    (hle : u ≤ lb.hist.length) (hc : ∀ lo ∈ lb.hist, lo.Counted)
    (hback : Change.Applies lb.ln (lb.journal.done.map Change.symm)) (hl : lb.Lined) :
    (undoLoop useq u lb).Lined := by
  induction u generalizing lb with
  | zero => exact hl
  | succ u ih =>
    obtain ⟨lo, hlo⟩ : ∃ lo, lb.hist[u]? = some lo := ⟨lb.hist[u], List.getElem?_eq_getElem hle⟩
    rw [undoLoop, hlo]
    simp only
    split
    · have hrecord := undoOpt_record { lb with histU := u } lo
      have hhist : (undoOpt { lb with histU := u } lo).hist = lb.hist := congrArg (·.1) hrecord
      have hhistU : (undoOpt { lb with histU := u } lo).histU = u := congrArg (·.2.1) hrecord
      have hcounted := hc lo (List.mem_of_getElem? hlo)
      have hjournal := undoOpt_journal hlo hcounted
      rw [Lbuf.journal, hu, (take_drop_of_getElem? hlo).1, List.reverse_append] at hback
      -- the lines that the operation brought stand where it says
      have hholds : HoldsAt lo.pos lo.patch.ins lb.ln := hback.1
      have hrange : lo.pos + lo.nIns ≤ lb.ln.length := hcounted.ins ▸ hholds.le_length
      apply ih hhistU (by rw [hhist]; omega) (by rwa [hhist])
      · have hln : (undoOpt { lb with histU := u } lo).ln = lo.change.2.symm lb.ln :=
          congrArg Journal.now hjournal
        rw [hln, hjournal]
        exact hback.2
      · apply lined_of_unmarked (undoOpt_unmarked _ lo)
        have hl' : Lbuf.Lined { lb with histU := u } := ⟨hl.proper, hl.glob⟩
        exact lbufReplace_lined hl' lo.del lo.delLen hrange
    · exact hl

theorem redoLoop_lined (useq : Nat) {los : List Lopt} {lb : Lbuf}
    (hlos : lb.hist.drop lb.histU = los) (hc : ∀ lo ∈ lb.hist, lo.Counted)
    (hahead : Change.Applies lb.ln (los.map Lopt.change)) (hl : lb.Lined) :
    (redoLoop useq los lb).Lined := by
  induction los generalizing lb with
  | nil => exact hl
  | cons lo los ih =>
    rw [redoLoop]
    split
    · have hrecord := redoOpt_record { lb with histU := lb.histU + 1 } lo
      have hhist : (redoOpt { lb with histU := lb.histU + 1 } lo).hist = lb.hist :=
        congrArg (·.1) hrecord
      have hhistU : (redoOpt { lb with histU := lb.histU + 1 } lo).histU = lb.histU + 1 :=
        congrArg (·.2.1) hrecord
      have hmem : lo ∈ lb.hist := List.mem_of_mem_drop (hlos ▸ List.mem_cons_self)
      have hcounted := hc lo hmem
      have hjournal := redoOpt_journal hlos hcounted
      have hholds : HoldsAt lo.pos lo.patch.del lb.ln := hahead.1
      have hrange : lo.pos + lo.nDel ≤ lb.ln.length := hcounted.del ▸ hholds.le_length
      apply ih
      · rw [hhist, hhistU, ← List.tail_drop, hlos]
        rfl
      · rwa [hhist]
      · have hln : (redoOpt { lb with histU := lb.histU + 1 } lo).ln = lo.change.2 lb.ln :=
          congrArg Journal.now hjournal
        rw [hln]
        exact hahead.2
      · apply lined_of_unmarked (redoOpt_unmarked _ lo)
        have hl' : Lbuf.Lined { lb with histU := lb.histU + 1 } := ⟨hl.proper, hl.glob⟩
        exact lbufReplace_lined hl' lo.ins lo.insLen hrange
    · exact hl

/-- The history stays as it is under `lbuf_undo`, but for its head. -/
theorem undoLoop_record (useq : Nat) {u : Nat} {lb : Lbuf} (hu : lb.histU = u)
    (hle : u ≤ lb.hist.length) :
    ∃ u' ≤ u, (undoLoop useq u lb).record = { lb with histU := u' }.record := by
  induction u generalizing lb with
  | zero =>
    refine ⟨0, Nat.le_refl 0, ?_⟩
    show lb.record = _
    rw [← hu]
  | succ u ih =>
    obtain ⟨lo, hlo⟩ : ∃ lo, lb.hist[u]? = some lo := ⟨lb.hist[u], List.getElem?_eq_getElem hle⟩
    rw [undoLoop, hlo]
    simp only
    split
    · have hrecord := undoOpt_record { lb with histU := u } lo
      have hhist : (undoOpt { lb with histU := u } lo).hist = lb.hist := congrArg (·.1) hrecord
      have hhistU : (undoOpt { lb with histU := u } lo).histU = u := congrArg (·.2.1) hrecord
      obtain ⟨u', hu', hloop⟩ := ih hhistU (by rw [hhist]; omega)
      have hrest := congrArg (·.2.2) hrecord
      refine ⟨u', by omega, hloop.trans ?_⟩
      exact Prod.ext hhist (Prod.ext rfl hrest)
    · exact ⟨u + 1, Nat.le_refl _, by rw [← hu]⟩

theorem redoLoop_record (useq : Nat) {los : List Lopt} {lb : Lbuf}
    (hlos : lb.hist.drop lb.histU = los) (hle : lb.histU ≤ lb.hist.length) :
    ∃ u' ≤ lb.hist.length, (redoLoop useq los lb).record = { lb with histU := u' }.record := by
  induction los generalizing lb with
  | nil => exact ⟨lb.histU, hle, rfl⟩
  | cons lo los ih =>
    rw [redoLoop]
    split
    · have hrecord := redoOpt_record { lb with histU := lb.histU + 1 } lo
      have hhist : (redoOpt { lb with histU := lb.histU + 1 } lo).hist = lb.hist :=
        congrArg (·.1) hrecord
      have hhistU : (redoOpt { lb with histU := lb.histU + 1 } lo).histU = lb.histU + 1 :=
        congrArg (·.2.1) hrecord
      have hlt : lb.histU < lb.hist.length := by
        have hlen := congrArg List.length hlos
        rw [List.length_drop, List.length_cons] at hlen
        omega
      obtain ⟨u', hu', hloop⟩ := ih (by rw [hhist, hhistU, ← List.tail_drop, hlos]; rfl)
        (by rw [hhist, hhistU]; exact hlt)
      have hrest := congrArg (·.2.2) hrecord
      refine ⟨u', hhist ▸ hu', hloop.trans ?_⟩
      exact Prod.ext hhist (Prod.ext rfl hrest)
    · exact ⟨lb.histU, hle, rfl⟩

theorem lbufUndo_record {lb : Lbuf} (h : lb.Wf) :
    ∃ u' ≤ lb.hist.length, (lbufUndo lb).2.record = { lb with histU := u' }.record := by
  rw [lbufUndo]
  split
  · exact ⟨lb.histU, h.histU, rfl⟩
  · next lo _ =>
    obtain ⟨u', hu', hrecord⟩ := undoLoop_record lo.seq rfl h.histU
    exact ⟨u', by have := h.histU; omega, hrecord⟩

theorem lbufRedo_record {lb : Lbuf} (h : lb.Wf) :
    ∃ u' ≤ lb.hist.length, (lbufRedo lb).2.record = { lb with histU := u' }.record := by
  rw [lbufRedo]
  split
  · exact ⟨lb.histU, h.histU, rfl⟩
  · next lo los hdrop => exact redoLoop_record lo.seq hdrop h.histU

theorem lbufUndo_wf {lb : Lbuf} (h : lb.Wf) : (lbufUndo lb).2.Wf := by
  obtain ⟨u', hu', hrecord⟩ := lbufUndo_record h
  have hhist : (lbufUndo lb).2.hist = lb.hist := congrArg (·.1) hrecord
  have hhistU : (lbufUndo lb).2.histU = u' := congrArg (·.2.1) hrecord
  refine ⟨by rw [hhist, hhistU]; exact hu', ?_, by rw [hhist]; exact h.counted, ?_⟩
  · rw [lbufUndo]
    split
    · exact h.lined
    · exact undoLoop_lined _ rfl h.histU h.counted h.sound.back h.lined
  · rw [lbufUndo_journal h]
    exact h.sound.undo

theorem lbufRedo_wf {lb : Lbuf} (h : lb.Wf) : (lbufRedo lb).2.Wf := by
  obtain ⟨u', hu', hrecord⟩ := lbufRedo_record h
  have hhist : (lbufRedo lb).2.hist = lb.hist := congrArg (·.1) hrecord
  have hhistU : (lbufRedo lb).2.histU = u' := congrArg (·.2.1) hrecord
  refine ⟨by rw [hhist, hhistU]; exact hu', ?_, by rw [hhist]; exact h.counted, ?_⟩
  · rw [lbufRedo]
    split
    · exact h.lined
    · next lo los hdrop =>
      exact redoLoop_lined _ hdrop h.counted (hdrop ▸ h.sound.ahead) h.lined
  · rw [lbufRedo_journal h]
    exact h.sound.redo

/-! ## 5. Edits -/

theorem textOf_none (slen : Nat) : textOf none slen = [] := List.take_nil

theorem linesOf_lbufCopy {lb : Lbuf} (h : lb.Lined) {beg fin : Nat}
    (hs : Separated ((lb.ln.drop beg).take (fin - beg))) :
    linesOf (lbufCopy lb beg fin) = (lb.ln.drop beg).take (fin - beg) :=
  linesOf_flatMap_text
    (fun l hl => h.proper l (List.mem_of_mem_drop (List.mem_of_mem_take hl))) hs

/-- The operation that `lbuf_opt` adds is the replacement of the range by the lines of the text. -/
theorem newLopt_patch {lb : Lbuf} (h : lb.Lined) {s : Option (List UInt8)} {slen pos nDel : Nat}
    (hs : Separated ((lb.ln.drop pos).take nDel))
    (hdup : textOf (s.map ucDup) slen = textOf s slen) :
    (newLopt lb s slen pos nDel).patch =
      ⟨pos, (lb.ln.drop pos).take nDel, linesOf (textOf s slen)⟩ := by
  have hdel : linesOf (textOf (newLopt lb s slen pos nDel).del
      (newLopt lb s slen pos nDel).delLen) = (lb.ln.drop pos).take nDel := by
    rw [newLopt]
    by_cases hn : nDel = 0
    · rw [hn]
      rfl
    · rw [if_pos hn, if_pos hn, textOf, Option.getD_some,
        List.take_of_length_le (Nat.le_refl _)]
      have hsub : pos + nDel - pos = nDel := Nat.add_sub_cancel_left pos nDel
      rw [linesOf_lbufCopy h (by rwa [hsub]), hsub]
  show Patch.mk pos (linesOf _) (linesOf (textOf (s.map ucDup) slen)) = _
  rw [hdel, hdup]

/-- A buffer behind `lbuf_opt`: the lines of the one before it, with another history. -/
structure Recorded (lb lb' : Lbuf) (hist : List Lopt) : Prop where
  ln : lb'.ln = lb.ln
  lnGlob : lb'.lnGlob = lb.lnGlob
  record : lb'.record = (hist, hist.length, lb.useq, lb.useqZero, lb.useqLast)

/-- What `lbuf_opt` appends is the new operation, the cursor and marks saved with it apart. -/
theorem savedLopt_unmarked (lb : Lbuf) (s : Option (List UInt8)) (slen pos nDel : Nat) :
    (savedLopt lb s slen pos nDel).unmarked = (newLopt lb s slen pos nDel).unmarked := by
  rw [savedLopt, savemarks_unmarked]
  exact (lbufSavepos_unmarked lb _).2

theorem appendOpt_recorded (lb : Lbuf) (hist : List Lopt) (s : Option (List UInt8))
    (slen pos nDel : Nat) :
    Recorded lb (appendOpt lb hist s slen pos nDel) (hist ++ [savedLopt lb s slen pos nDel]) :=
  ⟨rfl, rfl, by rw [List.length_append]; rfl⟩

theorem mergedLopt_unmarked (lb : Lbuf) (lo : Lopt) (s : Option (List UInt8)) (slen : Nat) :
    (mergedLopt lb lo s slen).unmarked =
      Lopt.unmarked { lo with ins := s.map (·.take slen), insLen := slen } :=
  (lbufSavepos_unmarked lb _).2

theorem mergeOpt_recorded (lb : Lbuf) (hist : List Lopt) (lo : Lopt) (s : Option (List UInt8))
    (slen : Nat) :
    Recorded lb (mergeOpt lb (hist ++ [lo]) lo s slen) (hist ++ [mergedLopt lb lo s slen]) := by
  refine ⟨rfl, rfl, ?_⟩
  show ((hist ++ [lo]).dropLast ++ [mergedLopt lb lo s slen], (hist ++ [lo]).length, lb.useq,
    lb.useqZero, lb.useqLast) = _
  rw [List.dropLast_concat, List.length_append, List.length_append]
  rfl

/-- An edit once its operation stands at the end of the history. -/
theorem Recorded.replace {lb lb' : Lbuf} {hist : List Lopt} {lo : Lopt}
    (h : Recorded lb lb' (hist ++ [lo])) (s : Option (List UInt8)) (slen pos nDel : Nat) :
    (lbufReplace lb' s slen pos nDel).journal =
      ⟨lo.change :: hist.reverse.map Lopt.change,
        splice pos nDel (linesOf (textOf s slen)) lb.ln, []⟩ := by
  have hhist : lb'.hist = hist ++ [lo] := congrArg (·.1) h.record
  have hhistU : lb'.histU = (hist ++ [lo]).length := congrArg (·.2.1) h.record
  show (lbufReplace lb' s slen pos nDel).unmarked.journal = _
  rw [lbufReplace_unmarked, ← h.ln]
  show Journal.mk ((lb'.hist.take lb'.histU).reverse.map Lopt.change) _
    ((lb'.hist.drop lb'.histU).map Lopt.change) = _
  rw [hhist, hhistU, List.take_length, List.drop_length, List.reverse_append]
  rfl

/-- What is kept by an edit, once its operation stands at the end of the history. -/
theorem Recorded.wf {lb lb' : Lbuf} {hist : List Lopt} {lo : Lopt}
    (h : Recorded lb lb' (hist ++ [lo])) (hl : lb.Lined) (hhist : ∀ lo ∈ hist, lo.Counted)
    (hlo : lo.Counted) {s : Option (List UInt8)} {slen pos nDel : Nat}
    (hle : pos + nDel ≤ lb.ln.length)
    (hsound : (lbufReplace lb' s slen pos nDel).journal.Sound) :
    (lbufReplace lb' s slen pos nDel).Wf := by
  have hrecord := (lbufReplace_record lb' s slen pos nDel).trans h.record
  have hh : (lbufReplace lb' s slen pos nDel).hist = hist ++ [lo] := congrArg (·.1) hrecord
  have hu : (lbufReplace lb' s slen pos nDel).histU = (hist ++ [lo]).length :=
    congrArg (·.2.1) hrecord
  refine ⟨by rw [hh, hu], ?_, ?_, hsound⟩
  · have hl' : lb'.Lined := ⟨by rw [h.ln]; exact hl.proper, by rw [h.ln, h.lnGlob]; exact hl.glob⟩
    exact lbufReplace_lined hl' s slen (by rwa [h.ln])
  · rw [hh]
    intro lo' hmem
    rcases List.mem_append.mp hmem with hmem | hmem
    · exact hhist lo' hmem
    · rw [List.mem_singleton.mp hmem]
      exact hlo

section
variable {lb : Lbuf} {s : Option (List UInt8)} {slen pos nDel : Nat}

theorem range_length {ls : List Line} (hle : pos + nDel ≤ ls.length) :
    ((ls.drop pos).take nDel).length = nDel := by
  rw [List.length_take, List.length_drop]
  omega

/-- The patch of the operation that is appended. -/
theorem savedLopt_patch (h : lb.Lined) (hs : Separated ((lb.ln.drop pos).take nDel))
    (hdup : textOf (s.map ucDup) slen = textOf s slen) :
    (savedLopt lb s slen pos nDel).patch =
      ⟨pos, (lb.ln.drop pos).take nDel, linesOf (textOf s slen)⟩ := by
  show (savedLopt lb s slen pos nDel).unmarked.patch = _
  rw [savedLopt_unmarked]
  exact newLopt_patch h hs hdup

theorem savedLopt_seq : (savedLopt lb s slen pos nDel).seq = lb.useq := by
  show (savedLopt lb s slen pos nDel).unmarked.seq = _
  rw [savedLopt_unmarked]
  rfl

theorem savedLopt_counted (h : lb.Lined) (hle : pos + nDel ≤ lb.ln.length)
    (hs : Separated ((lb.ln.drop pos).take nDel))
    (hdup : textOf (s.map ucDup) slen = textOf s slen) :
    (savedLopt lb s slen pos nDel).Counted := by
  rw [← Lopt.counted_unmarked, savedLopt_unmarked, Lopt.counted_unmarked]
  constructor
  · rw [newLopt_patch h hs hdup]
    exact (linesOf_length _).symm
  · rw [newLopt_patch h hs hdup]
    exact (range_length hle).symm

/-- An operation that is appended is recorded in the journal. -/
theorem appendOpt_edit (h : lb.Wf) (hle : pos + nDel ≤ lb.ln.length)
    (hs : Separated ((lb.ln.drop pos).take nDel))
    (hdup : textOf (s.map ucDup) slen = textOf s slen) :
    (lbufReplace (appendOpt lb (lb.hist.take lb.histU) s slen pos nDel) s slen pos nDel).Wf ∧
      (lbufReplace (appendOpt lb (lb.hist.take lb.histU) s slen pos nDel) s slen pos nDel).timeline =
        lb.timeline.edit lb.useq (splice pos nDel (linesOf (textOf s slen)) lb.ln) := by
  have hrec := appendOpt_recorded lb (lb.hist.take lb.histU) s slen pos nDel
  have hpatch := savedLopt_patch h.lined hs hdup
  have hcounted := savedLopt_counted h.lined hle hs hdup
  have hseq : (savedLopt lb s slen pos nDel).seq = lb.useq := savedLopt_seq
  generalize savedLopt lb s slen pos nDel = lo at hrec hpatch hcounted hseq
  have hsource : lb.journal.now ∈ lo.change.2.source := by
    show HoldsAt lo.patch.pos lo.patch.del lb.ln
    rw [hpatch]
    exact holdsAt_range hle
  have hnow : lo.change.2 lb.ln = splice pos nDel (linesOf (textOf s slen)) lb.ln := by
    show splice lo.patch.pos lo.patch.del.length lo.patch.ins lb.ln = _
    rw [hpatch]
    show splice pos ((lb.ln.drop pos).take nDel).length _ lb.ln = _
    rw [range_length hle]
  have hjournal := hrec.replace s slen pos nDel
  rw [← hnow] at hjournal
  have hrecord : (lbufReplace (appendOpt lb (lb.hist.take lb.histU) s slen pos nDel) s slen pos
      nDel).journal = lb.journal.record lo.change := hjournal
  refine ⟨hrec.wf h.lined (fun lo' hmem => h.counted lo' (List.mem_of_mem_take hmem)) hcounted hle
    (hrecord ▸ h.sound.record hsource), ?_⟩
  rw [Lbuf.timeline, hrecord, Journal.record_timeline hsource, ← hnow, ← hseq]
  rfl

section
variable {hist : List Lopt} {lo : Lopt}

/-- The operation that a change joins has brought the line that is changed. -/
theorem merges_holds (h : lb.Wf) (hlast : lb.hist.take lb.histU = hist ++ [lo])
    (hm : lo.merges lb.useq s slen pos nDel = true) :
    HoldsAt pos lo.patch.ins lb.ln ∧ lo.patch.ins.length = nDel := by
  obtain ⟨-, hpos, hins, hdel, -⟩ := of_decide_eq_true hm
  have hcounted : lo.Counted :=
    h.counted lo (List.mem_of_mem_take (hlast ▸ List.mem_append_right _ List.mem_cons_self))
  have hback := h.sound.back
  rw [Lbuf.journal, hlast, List.reverse_append] at hback
  exact ⟨hpos ▸ hback.1, by rw [← hcounted.ins, hins, hdel]⟩

theorem mergedLopt_patch (lb : Lbuf) (lo : Lopt) (s : Option (List UInt8)) (slen : Nat) :
    (mergedLopt lb lo s slen).patch = ⟨lo.pos, lo.patch.del, linesOf (textOf s slen)⟩ := by
  have htext : textOf (s.map (·.take slen)) slen = textOf s slen := by
    cases s with
    | none => rfl
    | some t =>
      show (t.take slen).take slen = t.take slen
      rw [List.take_take, Nat.min_self]
  show (mergedLopt lb lo s slen).unmarked.patch = _
  rw [mergedLopt_unmarked, ← htext]
  rfl

theorem mergedLopt_counted (hm : lo.merges lb.useq s slen pos nDel = true) (hcounted : lo.Counted) :
    (mergedLopt lb lo s slen).Counted := by
  obtain ⟨-, -, hins, -, hone⟩ := of_decide_eq_true hm
  constructor
  · show (mergedLopt lb lo s slen).unmarked.nIns = _
    rw [mergedLopt_unmarked, mergedLopt_patch]
    show lo.nIns = (linesOf (textOf s slen)).length
    rw [linesOf_length, hins]
    exact hone.symm
  · show (mergedLopt lb lo s slen).unmarked.nDel = _
    rw [mergedLopt_unmarked, mergedLopt_patch]
    exact hcounted.del

/-- A change of a single line that joins the operation before it amends the journal. -/
theorem mergeOpt_edit (h : lb.Wf) (hlast : lb.hist.take lb.histU = hist ++ [lo])
    (hm : lo.merges lb.useq s slen pos nDel = true) :
    (lbufReplace (mergeOpt lb (hist ++ [lo]) lo s slen) s slen pos nDel).Wf ∧
      (lbufReplace (mergeOpt lb (hist ++ [lo]) lo s slen) s slen pos nDel).timeline =
        lb.timeline.edit lb.useq (splice pos nDel (linesOf (textOf s slen)) lb.ln) := by
  obtain ⟨hseq, hpos, -, hdel, hone⟩ := of_decide_eq_true hm
  obtain ⟨hholds, hinsLen⟩ := merges_holds h hlast hm
  have hrec := mergeOpt_recorded lb hist lo s slen
  have hcounted : lo.Counted :=
    h.counted lo (List.mem_of_mem_take (hlast ▸ List.mem_append_right _ List.mem_cons_self))
  have hcounted' := mergedLopt_counted hm hcounted
  have hpatch := mergedLopt_patch lb lo s slen
  have hseq' : (mergedLopt lb lo s slen).seq = lo.seq := by
    show (mergedLopt lb lo s slen).unmarked.seq = _
    rw [mergedLopt_unmarked]
    rfl
  generalize mergedLopt lb lo s slen = lo' at hrec hcounted' hpatch hseq'
  have hdone : lb.journal.done = lo.change :: hist.reverse.map Lopt.change := by
    rw [Lbuf.journal, hlast, List.reverse_append]
    rfl
  have hnew : (linesOf (textOf s slen)).length = nDel := by
    rw [linesOf_length, hdel]
    exact hone
  have htarget : splice pos nDel (linesOf (textOf s slen)) lb.ln ∈ lo'.change.2.target := by
    show HoldsAt lo'.patch.pos lo'.patch.ins _
    rw [hpatch, hpos, ← hinsLen]
    exact hholds.replace _
  have hstart : lo'.change.2.symm (splice pos nDel (linesOf (textOf s slen)) lb.ln) =
      lo.change.2.symm lb.journal.now := by
    show splice lo'.patch.pos lo'.patch.ins.length lo'.patch.del _ =
      splice lo.pos lo.patch.ins.length lo.patch.del lb.ln
    rw [hpatch, hpos, ← hinsLen, hholds.splice_splice]
  have hjournal := hrec.replace s slen pos nDel
  refine ⟨hrec.wf h.lined ?_ hcounted' (hinsLen ▸ hholds.le_length)
    (hjournal ▸ h.sound.amend hdone htarget hstart), ?_⟩
  · intro lo'' hmem
    exact h.counted lo'' (List.mem_of_mem_take (hlast ▸ List.mem_append_left _ hmem))
  · rw [Lbuf.timeline, hjournal, Journal.amend_timeline hdone hseq' hstart, ← hseq]
    rfl

end

theorem lbufOpt_edit (h : lb.Wf) (hle : pos + nDel ≤ lb.ln.length)
    (hs : Separated ((lb.ln.drop pos).take nDel))
    (hdup : textOf (s.map ucDup) slen = textOf s slen) :
    (lbufReplace (lbufOpt lb s slen pos nDel) s slen pos nDel).Wf ∧
      (lbufReplace (lbufOpt lb s slen pos nDel) s slen pos nDel).timeline =
        lb.timeline.edit lb.useq (splice pos nDel (linesOf (textOf s slen)) lb.ln) := by
  have happend := appendOpt_edit h hle hs hdup
  rw [lbufOpt]
  rcases List.eq_nil_or_concat (lb.hist.take lb.histU) with hnil | ⟨hist, lo, hlast⟩
  · rw [hnil] at happend ⊢
    exact happend
  · rw [List.concat_eq_append] at hlast
    have hget : (lb.hist.take lb.histU).getLast? = some lo := by
      rw [hlast, List.getLast?_append]
      rfl
    rw [hget]
    simp only
    split
    · next hm =>
      rw [hlast]
      exact mergeOpt_edit h hlast hm
    · exact happend

end

/-! ## 6. Runs -/

/-- The lines with those of `text` in the place of a range; the ends of the range are cut to the
number of lines, and nothing happens where there is neither a text nor a range. -/
def editLines (q : ℕ) (text : Option (List UInt8)) (beg fin : Nat) (t : Timeline (List Line)) :
    Timeline (List Line) :=
  let beg := min beg t.now.length
  let fin := min fin t.now.length
  if beg = fin ∧ text = none then t
  else t.edit q (splice beg (fin - beg) (linesOf (text.getD [])) t.now)

theorem range_clip (ls : List Line) (beg fin : Nat) :
    (ls.drop (min beg ls.length)).take (min fin ls.length - min beg ls.length) =
      (ls.drop beg).take (fin - beg) := by
  by_cases h : beg ≤ ls.length
  · rw [Nat.min_eq_left h]
    by_cases hf : fin ≤ ls.length
    · rw [Nat.min_eq_left hf]
    · have hshort : (ls.drop beg).length ≤ ls.length - beg := by rw [List.length_drop]
      rw [Nat.min_eq_right (show ls.length ≤ fin by omega), List.take_of_length_le hshort,
        List.take_of_length_le (by omega)]
  · rw [Nat.min_eq_right (show ls.length ≤ beg by omega), List.drop_length,
      List.drop_of_length_le (show ls.length ≤ beg by omega), List.take_nil, List.take_nil]

theorem lbufEditraw_edit {lb : Lbuf} (h : lb.Wf) {s : Option (List UInt8)} {slen beg fin : Nat}
    (hs : Separated ((lb.ln.drop beg).take (fin - beg)))
    (hdup : textOf (s.map ucDup) slen = textOf s slen) :
    (lbufEditraw lb s slen beg fin).Wf ∧
      (lbufEditraw lb s slen beg fin).timeline =
        editLines lb.useq (s.map (·.take slen)) beg fin lb.timeline := by
  have hnone : s.map (·.take slen) = none ↔ s = none := Option.map_eq_none_iff
  have htext : (s.map (·.take slen)).getD [] = textOf s slen := by
    cases s with
    | none => exact (textOf_none slen).symm
    | some t => rfl
  have hnow : lb.timeline.now = lb.ln := rfl
  rw [lbufEditraw, editLines, htext, hnow]
  by_cases hc : min beg lb.ln.length = min fin lb.ln.length ∧ s = none
  · rw [if_pos hc, if_pos ⟨hc.1, hnone.mpr hc.2⟩]
    exact ⟨h, rfl⟩
  · rw [if_neg hc, if_neg fun hc' => hc ⟨hc'.1, hnone.mp hc'.2⟩]
    rw [← range_clip] at hs
    exact lbufOpt_edit h (by omega) hs hdup

theorem ucDup_eq {s : List UInt8} (h : (0 : UInt8) ∉ s) : ucDup s = s := by
  rw [ucDup, List.takeWhile_eq_self_iff]
  intro c hc
  exact decide_eq_true fun heq => h (heq ▸ hc)

/-- A string is seen up to its NUL everywhere. -/
theorem textOf_ucDup (t : List UInt8) : t.take (ucDup t).length = ucDup t :=
  (List.prefix_iff_eq_take.mp (List.takeWhile_prefix _)).symm

/-- The calls that change a buffer, with their arguments. -/
inductive Op
  | edit (s : Option (List UInt8)) (beg fin : Nat)
  | rd (rs : List Read) (beg fin : Nat)
  | undo
  | redo
  | tx
  | saved (clear : Bool)
  | mark (c : UInt8) (pos off : Int)
  | globset (pos dep : Nat)
  | globget (pos dep : Nat)

def exec (lb : Lbuf) : Op → Lbuf
  | .edit s beg fin => lbufEdit lb s beg fin
  | .rd rs beg fin => (lbufRd lb rs beg fin).2
  | .undo => (lbufUndo lb).2
  | .redo => (lbufRedo lb).2
  | .tx => lbufTx lb
  | .saved clear => lbufSaved lb clear
  | .mark c pos off => lbufMark lb c pos off
  | .globset pos dep => lbufGlobset lb pos dep
  | .globget pos dep => (lbufGlobget lb pos dep).2

/-- The lines from `beg` to `fin` can be told apart in their text. -/
def Replaceable (lb : Lbuf) (beg fin : Nat) : Prop :=
  beg ≤ fin ∧ Separated ((lb.ln.drop beg).take (fin - beg))

instance (lb : Lbuf) (beg fin : Nat) : Decidable (Replaceable lb beg fin) :=
  inferInstanceAs (Decidable (_ ∧ _))

/-- What the history needs of a call: a replaced range is a range, whose lines can be told apart in
their text, and a file that is read has no NUL. -/
def Clean (lb : Lbuf) : Op → Prop
  | .edit _ beg fin => Replaceable lb beg fin
  | .rd rs beg fin => Replaceable lb beg fin ∧ (0 : UInt8) ∉ (rdLoop [] rs).2
  | _ => True

instance (lb : Lbuf) (op : Op) : Decidable (Clean lb op) :=
  match op with
  | .edit _ beg fin => inferInstanceAs (Decidable (Replaceable lb beg fin))
  | .rd rs beg fin =>
    inferInstanceAs (Decidable (Replaceable lb beg fin ∧ (0 : UInt8) ∉ (rdLoop [] rs).2))
  | .undo => isTrue trivial
  | .redo => isTrue trivial
  | .tx => isTrue trivial
  | .saved _ => isTrue trivial
  | .mark _ _ _ => isTrue trivial
  | .globset _ _ => isTrue trivial
  | .globget _ _ => isTrue trivial

/-- A call that is clean. -/
def Step (lb : Lbuf) (op : Op) (lb' : Lbuf) : Prop := Clean lb op ∧ lb' = exec lb op

/-- What a call does to the number of the change set and to the timeline of the lines. -/
def timelineStep : ℕ × Timeline (List Line) → Op → ℕ × Timeline (List Line)
  | (q, t), .edit s beg fin => (q, editLines q (s.map ucDup) beg fin t)
  | (q, t), .rd rs beg fin =>
    match rdLoop [] rs with
    | (true, sb) => (q, editLines q (some sb) beg fin t)
    | (false, _) => (q, t)
  | (q, t), .undo => (q, t.undo)
  | (q, t), .redo => (q, t.redo)
  | (q, t), .tx => (q + 1, t)
  | (q, t), .saved clear => (q, if clear then t.forget else t)
  | (q, t), _ => (q, t)

theorem stops_change_eq_nil {d : List Line} {cs : List (Change (List Line))} :
    Change.stops d (cs.map Change.symm) = [] ↔ cs = [] := by
  rw [Change.stops_eq_nil, List.map_eq_nil_iff]

theorem lbufEdit_edit {lb : Lbuf} (h : lb.Wf) {s : Option (List UInt8)} {beg fin : Nat}
    (hr : Replaceable lb beg fin) :
    (lbufEdit lb s beg fin).Wf ∧
      (lbufEdit lb s beg fin).timeline = editLines lb.useq (s.map ucDup) beg fin lb.timeline := by
  cases s with
  | none => exact lbufEditraw_edit h hr.2 rfl
  | some t =>
    have hdup : textOf ((some t).map ucDup) (ucDup t).length =
        textOf (some t) (ucDup t).length := by
      show (ucDup t).take (ucDup t).length = t.take (ucDup t).length
      rw [List.take_length, textOf_ucDup]
    have hedit := lbufEditraw_edit h hr.2 hdup
    rw [Option.map_some, textOf_ucDup] at hedit
    exact hedit

theorem lbufRd_edit {lb : Lbuf} (h : lb.Wf) {rs : List Read} {beg fin : Nat}
    (hr : Replaceable lb beg fin) (hnul : (0 : UInt8) ∉ (rdLoop [] rs).2) :
    (lbufRd lb rs beg fin).2.Wf ∧
      (lb.useq, (lbufRd lb rs beg fin).2.timeline) =
        timelineStep (lb.useq, lb.timeline) (.rd rs beg fin) := by
  rw [lbufRd, timelineStep]
  rcases hrd : rdLoop [] rs with ⟨_ | _, sb⟩
  · exact ⟨h, rfl⟩
  · rw [hrd] at hnul
    have hdup : textOf ((some sb).map ucDup) sb.length = textOf (some sb) sb.length := by
      rw [Option.map_some, ucDup_eq hnul]
    have hedit := lbufEditraw_edit h hr.2 hdup
    rw [Option.map_some, List.take_length] at hedit
    exact ⟨hedit.1, congrArg (lb.useq, ·) hedit.2⟩

/-- An edit does not begin a change set. -/
theorem lbufEditraw_useq (lb : Lbuf) (s : Option (List UInt8)) (slen beg fin : Nat) :
    (lbufEditraw lb s slen beg fin).useq = lb.useq := by
  have hreplace (lb' : Lbuf) (pos nDel : Nat) : (lbufReplace lb' s slen pos nDel).useq = lb'.useq :=
    congrArg (·.2.2.1) (lbufReplace_record lb' s slen pos nDel)
  rw [lbufEditraw]
  split
  · rfl
  · rw [hreplace, lbufOpt]
    split
    · split <;> rfl
    · rfl

theorem lbufSaved_edit {lb : Lbuf} (h : lb.Wf) (clear : Bool) :
    (lbufSaved lb clear).Wf ∧
      (lbufSaved lb clear).timeline = if clear then lb.timeline.forget else lb.timeline := by
  cases clear with
  | false => exact ⟨⟨h.histU, ⟨h.lined.proper, h.lined.glob⟩, h.counted, h.sound⟩, rfl⟩
  | true =>
    refine ⟨⟨Nat.le_refl 0, ⟨h.lined.proper, h.lined.glob⟩, nofun, ?_⟩, rfl⟩
    exact ⟨trivial, trivial, nofun⟩

theorem globs_wf {lb : Lbuf} (h : lb.Wf) (pos : Nat) (f : UInt8 → UInt8) :
    Lbuf.Wf { lb with lnGlob := lb.lnGlob.modify pos f } :=
  ⟨h.histU, ⟨h.lined.proper, (List.length_modify ..).trans h.lined.glob⟩, h.counted, h.sound⟩

/-- Each clean call keeps the buffer well formed, and takes the step of the timeline. -/
theorem exec_timeline {lb : Lbuf} (h : lb.Wf) {op : Op} (hc : Clean lb op) :
    (exec lb op).Wf ∧
      ((exec lb op).useq, (exec lb op).timeline) = timelineStep (lb.useq, lb.timeline) op := by
  cases op with
  | edit s beg fin =>
    obtain ⟨hwf, htimeline⟩ : (lbufEdit lb s beg fin).Wf ∧ _ := lbufEdit_edit h hc
    exact ⟨hwf, Prod.ext (lbufEditraw_useq lb _ _ beg fin) htimeline⟩
  | rd rs beg fin =>
    have hrd := lbufRd_edit h hc.1 hc.2
    have huseq : (lbufRd lb rs beg fin).2.useq = lb.useq := by
      rw [lbufRd]
      split
      · exact lbufEditraw_useq lb _ _ beg fin
      · rfl
    refine ⟨hrd.1, ?_⟩
    rw [← hrd.2]
    exact Prod.ext huseq rfl
  | undo =>
    obtain ⟨u', -, hrecord⟩ := lbufUndo_record h
    refine ⟨lbufUndo_wf h, Prod.ext (congrArg (·.2.2.1) hrecord) ?_⟩
    exact (congrArg Journal.timeline (lbufUndo_journal h)).trans h.sound.undo_timeline
  | redo =>
    obtain ⟨u', -, hrecord⟩ := lbufRedo_record h
    refine ⟨lbufRedo_wf h, Prod.ext (congrArg (·.2.2.1) hrecord) ?_⟩
    exact (congrArg Journal.timeline (lbufRedo_journal h)).trans h.sound.redo_timeline
  | tx => exact ⟨⟨h.histU, ⟨h.lined.proper, h.lined.glob⟩, h.counted, h.sound⟩, rfl⟩
  | saved clear =>
    have hsaved := lbufSaved_edit h clear
    refine ⟨hsaved.1, Prod.ext ?_ hsaved.2⟩
    cases clear <;> rfl
  | mark c pos off =>
    have hmark := lbufMark_unmarked lb c pos off
    exact ⟨Lbuf.wf_of_unmarked hmark h, Prod.ext (congrArg (·.useq) hmark)
      (congrArg Journal.timeline (Lbuf.journal_of_unmarked hmark))⟩
  | globset pos dep => exact ⟨globs_wf h pos _, rfl⟩
  | globget pos dep => exact ⟨globs_wf h pos _, rfl⟩

theorem lbufMake_wf : lbufMake.Wf :=
  ⟨Nat.le_refl 0, ⟨nofun, rfl⟩, nofun, trivial, trivial, nofun⟩

/-- The number of the change set and the timeline behind the calls of a run. -/
def timelineRun (ops : List Op) : ℕ × Timeline (List Line) :=
  ops.foldl timelineStep (1, ⟨[], [], []⟩)

theorem run_timeline {lb lb' : Lbuf} {ops : List Op} (h : Run Step lb ops lb') (hwf : lb.Wf) :
    lb'.Wf ∧ (lb'.useq, lb'.timeline) = ops.foldl timelineStep (lb.useq, lb.timeline) := by
  induction h with
  | nil lb => exact ⟨hwf, rfl⟩
  | cons hstep _ ih =>
    obtain ⟨hc, rfl⟩ := hstep
    have hexec := exec_timeline hwf hc
    have hrest := ih hexec.1
    refine ⟨hrest.1, ?_⟩
    rw [hrest.2, hexec.2]
    rfl

/-- Along every run of clean calls the lines are those of the timeline, and undo and redo fail just
where the timeline ends. -/
theorem lbuf_refines_timeline {ops : List Op} {lb : Lbuf} (h : Run Step lbufMake ops lb) :
    lb.ln = (timelineRun ops).2.now ∧
      ((lbufUndo lb).1 = if (timelineRun ops).2.past = [] then 1 else 0) ∧
      (lbufRedo lb).1 = if (timelineRun ops).2.future = [] then 1 else 0 := by
  have hrun : (lb.useq, lb.timeline) = timelineRun ops := (run_timeline h lbufMake_wf).2
  rw [← hrun]
  refine ⟨rfl, ?_, ?_⟩
  · rw [lbufUndo_fst]
    exact if_congr stops_change_eq_nil.symm rfl rfl
  · rw [lbufRedo_fst]
    exact if_congr Change.stops_eq_nil.symm rfl rfl

/-- A file of two lines is read, the first is deleted, and brought back. -/
def fileOps : List Op :=
  [.rd [.data [0x61, 0x0A, 0x62]] 0 0, .tx, .edit none 0 1, .undo]

theorem fileOps_run : Run Step lbufMake fileOps (fileOps.foldl exec lbufMake) :=
  .cons ⟨⟨by decide, by decide⟩, rfl⟩ (.cons ⟨trivial, rfl⟩ (.cons ⟨by decide, rfl⟩
    (.single ⟨trivial, rfl⟩)))

theorem lbuf_refines_timeline_file :
    (fileOps.foldl exec lbufMake).ln = (timelineRun fileOps).2.now ∧
      ((lbufUndo (fileOps.foldl exec lbufMake)).1 =
        if (timelineRun fileOps).2.past = [] then 1 else 0) ∧
      (lbufRedo (fileOps.foldl exec lbufMake)).1 =
        if (timelineRun fileOps).2.future = [] then 1 else 0 :=
  lbuf_refines_timeline fileOps_run

end Neatvi
