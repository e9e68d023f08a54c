import ZteWifi.Neatvi.Undo

/-!
# The modified flag

`lbuf_modified` compares change set numbers, not lines.  Along every run of clean calls in which no
edit falls into the change set that the buffer was saved in, a buffer that counts as unmodified has
the lines that were saved; an edit that does fall into it goes unnoticed.
-/

namespace Neatvi

/-! ## 1. Numbers of change sets -/

theorem lbufSeq_eq (lb : Lbuf) : lbufSeq lb = lb.timeline.stamp lb.useqLast := by
  have hhead : lb.timeline.past.head?.map (·.1) = lb.journal.done.head?.map (·.1) :=
    (Change.stops_head _ _).trans (Journal.head_map_symm _)
  rw [Timeline.stamp, hhead, lbufSeq, Lbuf.journal]
  rcases List.eq_nil_or_concat (lb.hist.take lb.histU) with hnil | ⟨hist, lo, hlast⟩
  · rw [hnil]
    rfl
  · rw [hlast, List.concat_eq_append, List.getLast?_append, List.reverse_append]
    rfl

/-- The numbers that only `lbuf_saved` changes. -/
def Lbuf.savedNumbers (lb : Lbuf) : ℕ × ℕ := (lb.useqZero, lb.useqLast)

theorem lbufOpt_savedNumbers (lb : Lbuf) (s : Option (List UInt8)) (slen pos nDel : Nat) :
    (lbufOpt lb s slen pos nDel).savedNumbers = lb.savedNumbers := by
  rw [lbufOpt]
  split
  · split <;> rfl
  · rfl

theorem lbufEditraw_savedNumbers (lb : Lbuf) (s : Option (List UInt8)) (slen beg fin : Nat) :
    (lbufEditraw lb s slen beg fin).savedNumbers = lb.savedNumbers := by
  have hreplace (lb' : Lbuf) (pos nDel : Nat) :
      (lbufReplace lb' s slen pos nDel).savedNumbers = lb'.savedNumbers :=
    congrArg (·.2.2.2) (lbufReplace_record lb' s slen pos nDel)
  rw [lbufEditraw]
  split
  · rfl
  · rw [hreplace, lbufOpt_savedNumbers]

/-! ## 2. The saved lines -/

def Op.edits : Op → Bool
  | .edit _ _ _ => true
  | .rd _ _ _ => true
  | _ => false

/-- The lines that were saved last, behind a call. -/
def savedLines (lb : Lbuf) (saved : List Line) : Op → List Line
  | .saved _ => lb.ln
  | _ => saved

/-- A clean call that is no edit in the change set the buffer was saved in. -/
def SavedStep (s : Lbuf × List Line) (op : Op) (s' : Lbuf × List Line) : Prop :=
  Step s.1 op s'.1 ∧ (op.edits = true → s.1.useq ≠ s.1.useqZero) ∧
    s'.2 = savedLines s.1 s.2 op

/-- What is known of a buffer and the lines saved last. -/
structure Kept (s : Lbuf × List Line) : Prop where
  wf : s.1.Wf
  marked : s.1.timeline.Marked s.1.useq s.1.useqLast s.1.useqZero s.2

theorem editLines_marked {q base mark : ℕ} {saved : List Line} {t : Timeline (List Line)}
    (h : t.Marked q base mark saved) (hq : q ≠ mark) (text : Option (List UInt8))
    (beg fin : Nat) : (editLines q text beg fin t).Marked q base mark saved := by
  rw [editLines]
  split
  · exact h
  · exact h.edit hq _

theorem exec_savedNumbers {lb : Lbuf} (h : lb.Wf) {op : Op} (hs : ∀ clear, op ≠ .saved clear) :
    (exec lb op).savedNumbers = lb.savedNumbers := by
  cases op with
  | edit s beg fin => exact lbufEditraw_savedNumbers lb _ _ beg fin
  | rd rs beg fin =>
    show (lbufRd lb rs beg fin).2.savedNumbers = _
    rw [lbufRd]
    split
    · exact lbufEditraw_savedNumbers lb _ _ beg fin
    · rfl
  | undo =>
    obtain ⟨u', -, hrecord⟩ := lbufUndo_record h
    exact congrArg (·.2.2.2) hrecord
  | redo =>
    obtain ⟨u', -, hrecord⟩ := lbufRedo_record h
    exact congrArg (·.2.2.2) hrecord
  | tx => rfl
  | saved clear => exact absurd rfl (hs clear)
  | mark c pos off =>
    show (lbufMark lb c pos off).unmarked.savedNumbers = lb.unmarked.savedNumbers
    rw [lbufMark_unmarked]
  | globset pos dep => rfl
  | globget pos dep => rfl

theorem step_kept {s s' : Lbuf × List Line} {op : Op} (h : Kept s) (hstep : SavedStep s op s') :
    Kept s' := by
  obtain ⟨lb, saved⟩ := s
  obtain ⟨lb', saved'⟩ := s'
  obtain ⟨⟨hclean, hexec⟩, hedits, hsaved⟩ := hstep
  simp only at hclean hexec hedits hsaved
  subst hexec hsaved
  obtain ⟨hwf, hstep⟩ := exec_timeline h.wf hclean
  refine ⟨hwf, ?_⟩
  have huseq : (exec lb op).useq = (timelineStep (lb.useq, lb.timeline) op).1 :=
    congrArg (·.1) hstep
  have htimeline : (exec lb op).timeline = (timelineStep (lb.useq, lb.timeline) op).2 :=
    congrArg (·.2) hstep
  show (exec lb op).timeline.Marked (exec lb op).useq (exec lb op).useqLast (exec lb op).useqZero _
  by_cases hop : ∃ clear, op = .saved clear
  · obtain ⟨clear, rfl⟩ := hop
    cases clear with
    | false =>
      have hzero : (exec lb (.saved false)).useqZero = lb.timeline.stamp lb.useqLast :=
        lbufSeq_eq lb
      rw [hzero]
      exact h.marked.save
    | true => exact Timeline.marked_forget lb.useq lb.timeline
  · have hnumbers : (exec lb op).savedNumbers = lb.savedNumbers :=
      exec_savedNumbers h.wf fun clear heq => hop ⟨clear, heq⟩
    have hzero : (exec lb op).useqZero = lb.useqZero := congrArg (·.1) hnumbers
    have hlast : (exec lb op).useqLast = lb.useqLast := congrArg (·.2) hnumbers
    rw [huseq, htimeline, hzero, hlast]
    cases op with
    | edit t beg fin => exact editLines_marked h.marked (hedits rfl) _ beg fin
    | rd rs beg fin =>
      rw [timelineStep]
      split
      · exact editLines_marked h.marked (hedits rfl) _ beg fin
      · exact h.marked
    | undo => exact h.marked.undo
    | redo => exact h.marked.redo
    | tx => exact h.marked.next
    | saved clear => exact absurd ⟨clear, rfl⟩ hop
    | mark c pos off => exact h.marked
    | globset pos dep => exact h.marked
    | globget pos dep => exact h.marked

theorem lbufMake_kept : Kept (lbufMake, []) := by
  refine ⟨lbufMake_wf, List.pairwise_singleton _ _, ?_, nofun, ?_⟩
  · intro n hn
    rw [List.mem_singleton.mp hn]
    exact Nat.zero_le 1
  · intro v hv _
    have hv' : v = (0, []) := List.mem_singleton.mp hv
    rw [hv']

/-- A buffer that counts as unmodified has the lines that were saved. -/
theorem lbufModified_sound {ops : List Op} {lb : Lbuf} {saved : List Line}
    (h : Run SavedStep (lbufMake, []) ops (lb, saved)) (hm : lbufModified lb = false) :
    lb.ln = saved := by
  have hkept : Kept (lb, saved) :=
    Run.invariant (I := Kept) (fun _ _ _ => step_kept) h lbufMake_kept
  apply hkept.marked.now
  rw [← lbufSeq_eq]
  exact of_not_not (of_decide_eq_false hm)

theorem savedStep {lb : Lbuf} {op : Op} (hc : Clean lb op)
    (hedits : op.edits = true → lb.useq ≠ lb.useqZero) (saved : List Line) :
    SavedStep (lb, saved) op (exec lb op, savedLines lb saved op) := ⟨⟨hc, rfl⟩, hedits, rfl⟩

/-- A line is typed, saved, deleted in the next change set, and brought back. -/
def typedOps : List Op :=
  [.edit (some [0x61, 0x0A]) 0 0, .saved false, .tx, .edit none 0 1, .undo]

theorem typedOps_run :
    Run SavedStep (lbufMake, []) typedOps (typedOps.foldl exec lbufMake, [fullLine [0x61]]) :=
  .cons (savedStep (by decide) (by decide) []) (.cons (savedStep (by decide) (by decide) _)
    (.cons (savedStep (by decide) (by decide) _) (.cons (savedStep (by decide) (by decide) _)
      (.single (savedStep (by decide) (by decide) _)))))

theorem lbufModified_sound_typed : (typedOps.foldl exec lbufMake).ln = [fullLine [0x61]] :=
  lbufModified_sound typedOps_run (by decide)

/-! ## 3. Edits right behind a save -/

/-- `lbuf_opt` leaves an operation of the change set at hand at the end of the history, whether it
adds the operation or the change joins the one before it. -/
theorem lbufOpt_recorded (lb : Lbuf) (s : Option (List UInt8)) (slen pos nDel : Nat) :
    ∃ hist lo, Recorded lb (lbufOpt lb s slen pos nDel) (hist ++ [lo]) ∧ lo.seq = lb.useq := by
  have happend (hist : List Lopt) : ∃ hist' lo,
      Recorded lb (appendOpt lb hist s slen pos nDel) (hist' ++ [lo]) ∧ lo.seq = lb.useq :=
    ⟨hist, _, appendOpt_recorded lb hist s slen pos nDel, savedLopt_seq⟩
  rw [lbufOpt]
  rcases List.eq_nil_or_concat (lb.hist.take lb.histU) with hnil | ⟨hist, lo, hlast⟩
  · rw [hnil]
    exact happend []
  · rw [hlast, List.concat_eq_append, List.getLast?_concat]
    simp only
    split
    next hmerges =>
      refine ⟨hist, _, mergeOpt_recorded lb hist lo s slen, ?_⟩
      show (mergedLopt lb lo s slen).unmarked.seq = lb.useq
      rw [mergedLopt_unmarked]
      exact (of_decide_eq_true hmerges).1
    next => exact happend (hist ++ [lo])

/-- The number that is read behind an edit is that of the operation its history ends in. -/
theorem Recorded.lbufSeq_replace {lb lb' : Lbuf} {hist : List Lopt} {lo : Lopt}
    (h : Recorded lb lb' (hist ++ [lo])) (s : Option (List UInt8)) (slen pos nDel : Nat) :
    lbufSeq (lbufReplace lb' s slen pos nDel) = lo.seq := by
  -- `lbuf_replace` leaves the history alone
  have hrecord := (lbufReplace_record lb' s slen pos nDel).trans h.record
  have hhist : (lbufReplace lb' s slen pos nDel).hist = hist ++ [lo] := congrArg (·.1) hrecord
  have hhistU : (lbufReplace lb' s slen pos nDel).histU = (hist ++ [lo]).length :=
    congrArg (·.2.1) hrecord
  rw [lbufSeq, hhist, hhistU, List.take_length, List.getLast?_concat]

/-- An edit leaves an operation of its change set at the head of the history. -/
theorem lbufSeq_editraw {lb : Lbuf} {s : Option (List UInt8)} {slen beg fin : Nat}
    (hne : ¬ (min beg lb.ln.length = min fin lb.ln.length ∧ s = none)) :
    lbufSeq (lbufEditraw lb s slen beg fin) = lb.useq := by
  rw [lbufEditraw, if_neg hne]
  obtain ⟨hist, lo, hopt, hseq⟩ := lbufOpt_recorded lb s slen (min beg lb.ln.length)
    (min fin lb.ln.length - min beg lb.ln.length)
  exact (hopt.lbufSeq_replace s slen _ _).trans hseq

/-- An edit right behind a save is noticed just where the history was kept and its last operation is
of an earlier change set. -/
theorem lbufModified_edit_saved (lb : Lbuf) (clear : Bool) {s : Option (List UInt8)}
    {beg fin : Nat}
    (hne : ¬ (min beg lb.ln.length = min fin lb.ln.length ∧ s = none)) :
    lbufModified (lbufEdit (lbufSaved lb clear) s beg fin) = true ↔
      clear = false ∧ lbufSeq lb ≠ lb.useq := by
  have hln : (lbufSaved lb clear).ln = lb.ln := by cases clear <;> rfl
  have huseq : (lbufSaved lb clear).useq = lb.useq := by cases clear <;> rfl
  have hseq : lbufSeq (lbufEdit (lbufSaved lb clear) s beg fin) = (lbufSaved lb clear).useq :=
    lbufSeq_editraw (by rwa [hln])
  have hzero : (lbufEdit (lbufSaved lb clear) s beg fin).useqZero =
      (lbufSaved lb clear).useqZero :=
    congrArg (·.1) (lbufEditraw_savedNumbers (lbufSaved lb clear) _ _ beg fin)
  rw [lbufModified, hseq, hzero, huseq, decide_eq_true_iff]
  cases clear with
  | false => exact ⟨fun hq => ⟨rfl, hq.symm⟩, fun hq => hq.2.symm⟩
  | true => exact ⟨fun hq => absurd rfl hq, fun hq => absurd hq.1 nofun⟩

/-- A save behind an edit, and another edit of the same change set. -/
theorem lbufModified_edit_saved_typed :
    lbufModified (lbufEdit (lbufSaved (exec lbufMake (.edit (some [0x61, 0x0A]) 0 0)) false)
        none 0 1) = true ↔
      false = false ∧ lbufSeq (exec lbufMake (.edit (some [0x61, 0x0A]) 0 0)) ≠
        (exec lbufMake (.edit (some [0x61, 0x0A]) 0 0)).useq :=
  lbufModified_edit_saved (exec lbufMake (.edit (some [0x61, 0x0A]) 0 0)) false (by decide)

end Neatvi
