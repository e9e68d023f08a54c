import ZteWifi.Neatvi.Undo

/-!
# What a written file holds

`lbuf_wr` collects lines in a buffer and writes it in pieces that the kernel may cut anywhere.  The
file gets the text of the lines all the same, and reading it gives the lines back where they can be
told apart in their text.
-/

open Net

namespace Neatvi

/-! ## 1. Single writes -/

theorem writeFully_isPrefix (bs : List UInt8) (ws : List Write) :
    (writeFully bs ws).2.1 <+: bs := by
  induction ws generalizing bs with
  | nil => exact List.prefix_refl bs
  | cons w ws ih =>
    rw [writeFully.eq_def]
    simp only
    split
    · exact List.nil_prefix
    · cases w with
      | intr => exact ih bs
      | error => exact List.nil_prefix
      | took n =>
        conv =>
          rhs
          rw [← List.take_append_drop n bs]
        exact (List.prefix_append_right_inj _).mpr (ih _)

theorem writeFully_ok {bs : List UInt8} {ws : List Write} (h : (writeFully bs ws).1 = true) :
    (writeFully bs ws).2.1 = bs := by
  induction ws generalizing bs with
  | nil => rfl
  | cons w ws ih =>
    rw [writeFully.eq_def] at h ⊢
    simp only at h ⊢
    split at h
    · next hbs =>
      rw [if_pos hbs]
      exact hbs.symm
    · next hbs =>
      rw [if_neg hbs]
      cases w with
      | intr => exact ih h
      | error => cases h
      | took n =>
        show bs.take n ++ (writeFully (bs.drop n) ws).2.1 = bs
        rw [ih h, List.take_append_drop]

/-- Without an error everything is written. -/
theorem writeFully_of_no_error (bs : List UInt8) {ws : List Write} (h : Write.error ∉ ws) :
    (writeFully bs ws).1 = true ∧ Write.error ∉ (writeFully bs ws).2.2 := by
  induction ws generalizing bs with
  | nil => exact ⟨rfl, nofun⟩
  | cons w ws ih =>
    have hrest : Write.error ∉ ws := fun hw => h (List.mem_cons_of_mem _ hw)
    rw [writeFully.eq_def]
    simp only
    split
    · exact ⟨rfl, h⟩
    · cases w with
      | intr => exact ih bs hrest
      | error => exact absurd List.mem_cons_self h
      | took n => exact ih (bs.drop n) hrest

theorem put_isPrefix (bs : List UInt8) (f : Out) : (f.put bs).2.taken <+: f.taken ++ bs :=
  (List.prefix_append_right_inj _).mpr (writeFully_isPrefix bs f.ws)

theorem put_ok {bs : List UInt8} {f : Out} (h : (f.put bs).1 = true) :
    (f.put bs).2.taken = f.taken ++ bs := congrArg (f.taken ++ ·) (writeFully_ok h)

theorem put_of_no_error (bs : List UInt8) {f : Out} (h : Write.error ∉ f.ws) :
    (f.put bs).1 = true ∧ Write.error ∉ (f.put bs).2.ws := writeFully_of_no_error bs h

/-! ## 2. Lines -/

/-- The buffer is written before a line that it has no room for. -/
theorem wrLine_eq (l : Line) (buf : List UInt8) (f : Out) :
    (0 < buf.length ∧ wrSize < buf.length + l.lnLen ∧
      wrLine l buf f =
        if (f.put buf).1 = false then (false, [], (f.put buf).2)
        else if wrSize ≤ l.lnLen then
          (((f.put buf).2.put l.text).1, [], ((f.put buf).2.put l.text).2)
        else (true, l.text, (f.put buf).2)) ∨
    (¬ (0 < buf.length ∧ wrSize < buf.length + l.lnLen) ∧
      wrLine l buf f =
        if wrSize ≤ l.lnLen then ((f.put l.text).1, buf, (f.put l.text).2)
        else (true, buf ++ l.text, f)) := by
  by_cases hfull : 0 < buf.length ∧ wrSize < buf.length + l.lnLen
  · refine .inl ⟨hfull.1, hfull.2, ?_⟩
    rw [wrLine]
    simp only [if_pos hfull]
    rfl
  · refine .inr ⟨hfull, ?_⟩
    rw [wrLine]
    simp only [if_neg hfull]
    rfl

/-- A round takes the line over, into the file or into the buffer. -/
theorem wrLine_ok {l : Line} {buf : List UInt8} {f : Out} (h : (wrLine l buf f).1 = true) :
    (wrLine l buf f).2.2.taken ++ (wrLine l buf f).2.1 = f.taken ++ buf ++ l.text := by
  rcases wrLine_eq l buf f with ⟨-, -, heq⟩ | ⟨hroom, heq⟩
  · rw [heq] at h ⊢
    split at h
    · cases h
    · next hput =>
      have hput := put_ok (eq_true_of_ne_false hput)
      rw [if_neg ‹_›]
      split at h
      · next hlong =>
        rw [if_pos hlong]
        show ((f.put buf).2.put l.text).2.taken ++ [] = _
        rw [put_ok h, hput, List.append_nil]
      · next hlong =>
        rw [if_neg hlong]
        show (f.put buf).2.taken ++ l.text = _
        rw [hput]
  · rw [heq] at h ⊢
    split at h
    · next hlong =>
      -- the buffer is empty, or there would be no room
      have hnil : buf = [] := by
        apply List.eq_nil_of_length_eq_zero
        omega
      rw [if_pos hlong]
      show (f.put l.text).2.taken ++ buf = _
      rw [put_ok h, hnil, List.append_nil, List.append_nil]
    · next hlong =>
      rw [if_neg hlong, List.append_assoc]

theorem wrLine_isPrefix (l : Line) (buf : List UInt8) (f : Out) :
    (wrLine l buf f).2.2.taken <+: f.taken ++ buf ++ l.text := by
  have hbuf : (f.put buf).2.taken <+: f.taken ++ buf ++ l.text :=
    (put_isPrefix buf f).trans (List.prefix_append _ _)
  rcases wrLine_eq l buf f with ⟨-, -, heq⟩ | ⟨hroom, heq⟩
  · rw [heq]
    split
    · exact hbuf
    · next hput =>
      split
      · rw [← put_ok (eq_true_of_ne_false hput)]
        exact put_isPrefix l.text (f.put buf).2
      · exact hbuf
  · rw [heq]
    split
    · next hlong =>
      have hnil : buf = [] := by
        apply List.eq_nil_of_length_eq_zero
        omega
      rw [hnil, List.append_nil]
      exact put_isPrefix l.text f
    · rw [List.append_assoc]
      exact List.prefix_append _ _

theorem wrLine_of_no_error (l : Line) (buf : List UInt8) {f : Out} (h : Write.error ∉ f.ws) :
    (wrLine l buf f).1 = true ∧ Write.error ∉ (wrLine l buf f).2.2.ws := by
  have hbuf := put_of_no_error buf h
  rcases wrLine_eq l buf f with ⟨-, -, heq⟩ | ⟨-, heq⟩
  · rw [heq, if_neg (by rw [hbuf.1]; decide)]
    split
    · exact put_of_no_error l.text hbuf.2
    · exact ⟨rfl, hbuf.2⟩
  · rw [heq]
    split
    · exact put_of_no_error l.text h
    · exact ⟨rfl, h⟩

theorem text_length_le (l : Line) : l.text.length ≤ l.lnLen := by
  rw [Line.text, List.length_take]
  omega

theorem wrLine_buf {l : Line} {buf : List UInt8} (h : buf.length ≤ wrSize) (f : Out) :
    (wrLine l buf f).2.1.length ≤ wrSize := by
  have htext := text_length_le l
  rcases wrLine_eq l buf f with ⟨-, -, heq⟩ | ⟨hroom, heq⟩
  · rw [heq]
    split
    · exact Nat.zero_le _
    · split
      · exact Nat.zero_le _
      · exact Nat.le_trans htext (by omega)
  · rw [heq]
    split
    · exact h
    · show (buf ++ l.text).length ≤ wrSize
      rw [List.length_append]
      omega

/-! ## 3. The whole file -/

theorem wrLoop_ok {ls : List Line} {buf : List UInt8} {f : Out}
    (h : (wrLoop ls buf f).1 = true) :
    (wrLoop ls buf f).2.2.taken ++ (wrLoop ls buf f).2.1 =
      f.taken ++ buf ++ ls.flatMap Line.text := by
  induction ls generalizing buf f with
  | nil => exact (List.append_nil _).symm
  | cons l ls ih =>
    rw [wrLoop] at h ⊢
    have hline : (wrLine l buf f).1 = true → _ := wrLine_ok
    generalize wrLine l buf f = r at h hline ⊢
    obtain ⟨_ | _, buf', f'⟩ := r
    · cases h
    · have hrest := ih h
      rw [hline rfl, List.append_assoc] at hrest
      rw [List.flatMap_cons]
      exact hrest

theorem wrLoop_isPrefix (ls : List Line) (buf : List UInt8) (f : Out) :
    (wrLoop ls buf f).2.2.taken <+: f.taken ++ buf ++ ls.flatMap Line.text := by
  induction ls generalizing buf f with
  | nil =>
    rw [List.flatMap_nil, List.append_nil]
    exact List.prefix_append _ _
  | cons l ls ih =>
    rw [wrLoop, List.flatMap_cons, ← List.append_assoc]
    have hline := wrLine_isPrefix l buf f
    have hok : (wrLine l buf f).1 = true → _ := wrLine_ok
    generalize wrLine l buf f = r at hline hok ⊢
    obtain ⟨_ | _, buf', f'⟩ := r
    · exact hline.trans (List.prefix_append _ _)
    · rw [← hok rfl]
      exact ih buf' f'

theorem wrLoop_of_no_error (ls : List Line) (buf : List UInt8) {f : Out}
    (h : Write.error ∉ f.ws) :
    (wrLoop ls buf f).1 = true ∧ Write.error ∉ (wrLoop ls buf f).2.2.ws := by
  induction ls generalizing buf f with
  | nil => exact ⟨rfl, h⟩
  | cons l ls ih =>
    rw [wrLoop]
    have hline := wrLine_of_no_error l buf h
    generalize wrLine l buf f = r at hline ⊢
    obtain ⟨_ | _, buf', f'⟩ := r
    · exact absurd hline.1 nofun
    · exact ih buf' hline.2

/-- After any number of lines the buffer holds no more than its size. -/
theorem wrLoop_buf (ls : List Line) {buf : List UInt8} (h : buf.length ≤ wrSize) (f : Out) :
    (wrLoop ls buf f).2.1.length ≤ wrSize := by
  induction ls generalizing buf f with
  | nil => exact h
  | cons l ls ih =>
    rw [wrLoop]
    have hline : (wrLine l buf f).2.1.length ≤ wrSize := wrLine_buf h f
    generalize wrLine l buf f = r at hline ⊢
    obtain ⟨_ | _, buf', f'⟩ := r
    · exact hline
    · exact ih hline f'

/-- The bytes of the lines that `lbuf_wr` is to write. -/
def rangeText (lb : Lbuf) (beg fin : Nat) : List UInt8 :=
  ((lb.ln.drop beg).take (fin - beg)).flatMap Line.text

/-- The length of the lines as `lbuf_wr` adds it up is that of their text. -/
theorem sum_lnLen {ls : List Line} (h : ∀ l ∈ ls, l.Proper) :
    (ls.map Line.lnLen).sum = (ls.flatMap Line.text).length := by
  induction ls with
  | nil => rfl
  | cons l ls ih =>
    have hl : l.text.length = l.lnLen := by
      cases h l List.mem_cons_self with
      | full hb => rw [fullLine_text, List.length_append]; rfl
      | last hb hne => rw [openLine_text]; rfl
    rw [List.map_cons, List.sum_cons, List.flatMap_cons, List.length_append, hl,
      ih fun l' hl' => h l' (List.mem_cons_of_mem _ hl')]

/-- How `lbuf_wr` can end. -/
theorem lbufWr_outcome {lb : Lbuf} (hl : ∀ l ∈ lb.ln, l.Proper) (beg fin : Nat)
    (ws : List Write) (old : List UInt8) :
    (lbufWr lb beg fin ws old = (0, rangeText lb beg fin) ∨
      ∃ part, part <+: rangeText lb beg fin ∧
        lbufWr lb beg fin ws old = (1, part ++ old.drop part.length)) ∧
      (Write.error ∉ ws → (lbufWr lb beg fin ws old).1 = 0) := by
  have hok : (wrLoop ((lb.ln.drop beg).take (fin - beg)) [] ⟨[], ws⟩).1 = true → _ := wrLoop_ok
  have hpre := wrLoop_isPrefix ((lb.ln.drop beg).take (fin - beg)) [] ⟨[], ws⟩
  have hno : Write.error ∉ ws →
      (wrLoop ((lb.ln.drop beg).take (fin - beg)) [] ⟨[], ws⟩).1 = true ∧
        Write.error ∉ (wrLoop ((lb.ln.drop beg).take (fin - beg)) [] ⟨[], ws⟩).2.2.ws :=
    fun h => wrLoop_of_no_error _ [] h
  have hsum : ((lb.ln.drop beg).take (fin - beg) |>.map Line.lnLen).sum =
      (rangeText lb beg fin).length :=
    sum_lnLen fun l hmem => hl l (List.mem_of_mem_drop (List.mem_of_mem_take hmem))
  rw [lbufWr]
  simp only
  generalize wrLoop ((lb.ln.drop beg).take (fin - beg)) [] ⟨[], ws⟩ = r at hok hpre hno
  obtain ⟨_ | _, buf, f⟩ := r
  · exact ⟨.inr ⟨f.taken, hpre, rfl⟩, fun h => absurd (hno h).1 nofun⟩
  have htext : f.taken ++ buf = rangeText lb beg fin := hok rfl
  -- what is left in the buffer goes last
  have hlast : ((if 0 < buf.length then f.put buf else (true, f)).1 = true →
      (if 0 < buf.length then f.put buf else (true, f)).2.taken = rangeText lb beg fin) ∧
      (if 0 < buf.length then f.put buf else (true, f)).2.taken <+: rangeText lb beg fin ∧
      (Write.error ∉ ws → (if 0 < buf.length then f.put buf else (true, f)).1 = true) := by
    split
    · refine ⟨fun h => (put_ok h).trans htext, htext ▸ put_isPrefix buf f, ?_⟩
      exact fun h => (put_of_no_error buf (hno h).2).1
    · next hbuf =>
      have hnil : buf = [] := List.eq_nil_of_length_eq_zero (by omega)
      rw [hnil, List.append_nil] at htext
      exact ⟨fun _ => htext, htext ▸ List.prefix_refl _, fun _ => rfl⟩
  simp only
  generalize (if 0 < buf.length then f.put buf else (true, f)) = r at hlast
  obtain ⟨_ | _, f'⟩ := r
  · exact ⟨.inr ⟨f'.taken, hlast.2.1, rfl⟩, fun h => absurd (hlast.2.2 h) nofun⟩
  · refine ⟨.inl ?_, fun _ => rfl⟩
    have hfile : f'.taken = rangeText lb beg fin := hlast.1 rfl
    show (0, (f'.taken ++ old.drop f'.taken.length).take _) = _
    rw [hsum, hfile, List.take_left]

/-- Whatever the writes do: on success the file holds the text of the lines and nothing else, on
failure a first part of the text in front of what it held before; without an error they succeed, and
the buffer never holds more than its size. -/
theorem lbufWr_file {ops : List Op} {lb : Lbuf} (h : Run Step lbufMake ops lb) (beg fin : Nat)
    (ws : List Write) (old : List UInt8) :
    (lbufWr lb beg fin ws old = (0, rangeText lb beg fin) ∨
      ∃ part, part <+: rangeText lb beg fin ∧
        lbufWr lb beg fin ws old = (1, part ++ old.drop part.length)) ∧
      (Write.error ∉ ws → (lbufWr lb beg fin ws old).1 = 0) ∧
      ∀ n, (wrLoop (((lb.ln.drop beg).take (fin - beg)).take n) [] ⟨[], ws⟩).2.1.length ≤ wrSize := by
  obtain ⟨hends, hno⟩ :=
    lbufWr_outcome (run_timeline h lbufMake_wf).1.lined.proper beg fin ws old
  exact ⟨hends, hno, fun n => wrLoop_buf _ (Nat.zero_le _) _⟩

/-- The second line is written over a longer file, a byte at a time. -/
theorem lbufWr_file_line :
    (lbufWr (fileOps.foldl exec lbufMake) 1 2 [.took 1, .intr] [0x78, 0x79, 0x7A] =
        (0, rangeText (fileOps.foldl exec lbufMake) 1 2) ∨
      ∃ part, part <+: rangeText (fileOps.foldl exec lbufMake) 1 2 ∧
        lbufWr (fileOps.foldl exec lbufMake) 1 2 [.took 1, .intr] [0x78, 0x79, 0x7A] =
          (1, part ++ [0x78, 0x79, 0x7A].drop part.length)) ∧
      (Write.error ∉ [.took 1, .intr] →
        (lbufWr (fileOps.foldl exec lbufMake) 1 2 [.took 1, .intr] [0x78, 0x79, 0x7A]).1 = 0) ∧
      ∀ n, (wrLoop ((((fileOps.foldl exec lbufMake).ln.drop 1).take (2 - 1)).take n) []
        ⟨[], [.took 1, .intr]⟩).2.1.length ≤ wrSize :=
  lbufWr_file fileOps_run 1 2 [.took 1, .intr] [0x78, 0x79, 0x7A]

/-- A buffer that is written as a whole and read into another, in whatever pieces, has the same
lines there just where its lines, the last apart, are ended. -/
theorem lbufRd_lbufWr {ops : List Op} {lb : Lbuf} (h : Run Step lbufMake ops lb)
    {ws : List Write} {old : List UInt8} (hwr : (lbufWr lb 0 lb.ln.length ws old).1 = 0)
    {rs : List Read} (hrd : rdLoop [] rs = (true, (lbufWr lb 0 lb.ln.length ws old).2)) :
    (lbufRd lbufMake rs 0 0).2.ln = lb.ln ↔ Separated lb.ln := by
  have hl := (run_timeline h lbufMake_wf).1.lined.proper
  have hwhole : rangeText lb 0 lb.ln.length = lb.ln.flatMap Line.text := by
    rw [rangeText, List.drop_zero, Nat.sub_zero, List.take_length]
  have hfile : (lbufWr lb 0 lb.ln.length ws old).2 = lb.ln.flatMap Line.text := by
    rcases (lbufWr_outcome hl 0 lb.ln.length ws old).1 with heq | ⟨part, -, heq⟩
    · rw [heq, hwhole]
    · rw [heq] at hwr
      exact absurd hwr nofun
  have hread : (lbufRd lbufMake rs 0 0).2.ln = linesOf (lb.ln.flatMap Line.text) := by
    rw [lbufRd, hrd, hfile]
    show (lbufReplace _ _ _ 0 0).ln = _
    rw [lbufReplace_ln]
    show splice 0 0 (linesOf ((lb.ln.flatMap Line.text).take _)) [] = _
    rw [List.take_length]
    exact List.append_nil _
  rw [hread]
  constructor
  · intro heq
    rw [← heq]
    exact linesOf_separated _
  · exact linesOf_flatMap_text hl

/-- Two lines, of which the last has no newline, go to a file and come back in two pieces. -/
theorem lbufRd_lbufWr_file :
    (lbufRd lbufMake [.data [0x61], .data [0x0A, 0x62]] 0 0).2.ln =
        (fileOps.foldl exec lbufMake).ln ↔
      Separated (fileOps.foldl exec lbufMake).ln :=
  lbufRd_lbufWr fileOps_run
    (show (lbufWr (fileOps.foldl exec lbufMake) 0 2 [.took 2] []).1 = 0 by decide) (by decide)

end Neatvi
