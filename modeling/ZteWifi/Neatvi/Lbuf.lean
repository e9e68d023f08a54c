import Mathlib.Logic.Function.Basic
import ZteWifi.Text.Ascii

/-!
# The line buffer of the editor

`struct lbuf` and the operations on it: the lines, their marks, and the history that undo and redo
walk along.  A `char *` that may be `NULL` is an option; the sizes of the arrays (`ln_sz`,
`hist_sz`) are not kept, an array is as long as its count says.
-/

open Ascii

namespace Neatvi

/-! ## 1. The buffer -/

/-- `NMARKS` -/
abbrev nmarks : Nat := 32

/-- `NMARKS_BASE` -/
def nmarksBase : Nat := 0x7A - 0x61 + 3

/-- `ln[i]` up to its NUL, and `ln_len[i]`. -/
structure Line where
  ln : List UInt8
  lnLen : Nat
  deriving DecidableEq, Repr

/-- `struct lopt`; the marks of an operation that has saved none are all `-1`. -/
structure Lopt where
  ins : Option (List UInt8)
  del : Option (List UInt8)
  insLen : Nat
  delLen : Nat
  pos : Nat
  nIns : Nat
  nDel : Nat
  posOff : Int
  seq : Nat
  mark : Fin nmarks → Int
  markOff : Fin nmarks → Int

/-- `struct lbuf`; `hist_n` is the length of `hist`. -/
structure Lbuf where
  mark : Fin nmarks → Int
  markOff : Fin nmarks → Int
  ln : List Line
  lnGlob : List UInt8
  useq : Nat
  hist : List Lopt
  histU : Nat
  useqZero : Nat
  useqLast : Nat

def lbufMake : Lbuf where
  mark _ := -1
  markOff _ := 0
  ln := []
  lnGlob := []
  useq := 1
  hist := []
  histU := 0
  useqZero := 0
  useqLast := 0

/-! ## 2. Marks -/

/-- `markidx`; `none` is `-1`. -/
def markidx (mark : UInt8) : Option (Fin nmarks) :=
  if islower mark then some (Fin.ofNat nmarks (mark.toNat - 0x61))
  else if mark = 0x27 ∨ mark = 0x60 then some 26
  else if mark = 0x2A then some 27
  else if mark = 0x5B then some 28
  else if mark = 0x5D then some 29
  else if mark = 0x5E then some 30
  else none

/-- The places of the marks `*`, `[`, `]` and `^`. -/
abbrev starIdx : Fin nmarks := 27
abbrev openIdx : Fin nmarks := 28
abbrev closeIdx : Fin nmarks := 29
abbrev caretIdx : Fin nmarks := 30

/-- The assignments of `lbuf_mark` to a mark's two entries. -/
def Lbuf.setMark (lb : Lbuf) (m : Fin nmarks) (pos off : Int) : Lbuf :=
  { lb with
    mark := Function.update lb.mark m pos
    markOff := Function.update lb.markOff m off }

def lbufMark (lb : Lbuf) (mark : UInt8) (pos off : Int) : Lbuf :=
  match markidx mark with
  | some m => lb.setMark m pos off
  | none => lb

/-- `lbuf_jump`; `none` is the result 1. -/
def lbufJump (lb : Lbuf) (mark : UInt8) : Option (Int × Int) :=
  match markidx mark with
  | some m => if lb.mark m < 0 then none else some (lb.mark m, lb.markOff m)
  | none => none

def lbufSavemark (lb : Lbuf) (lo : Lopt) (m : Fin nmarks) : Lopt :=
  if 0 ≤ lb.mark m then
    { lo with
      mark := Function.update lo.mark m (lb.mark m)
      markOff := Function.update lo.markOff m (lb.markOff m) }
  else lo

def lbufLoadmark (lb : Lbuf) (lo : Lopt) (m : Fin nmarks) : Lbuf :=
  if 0 ≤ lo.mark m then lb.setMark m (lo.mark m) (lo.markOff m) else lb

/-- `lbuf_markcopy` -/
def lbufMarkcopy (lb : Lbuf) (dst src : Fin nmarks) : Lbuf :=
  lb.setMark dst (lb.mark src) (lb.markOff src)

def lbufSavepos (lb : Lbuf) (lo : Lopt) : Lbuf × Lopt :=
  (lbufMarkcopy lb starIdx caretIdx,
    if 0 ≤ lb.mark caretIdx then { lo with posOff := lb.markOff caretIdx } else lo)

def lbufLoadpos (lb : Lbuf) (lo : Lopt) : Lbuf :=
  lbufMarkcopy (lb.setMark caretIdx lo.pos lo.posOff) starIdx caretIdx

/-! ## 3. Replacing lines -/

def linelength (s : List UInt8) : Nat :=
  match s.findIdx? (· = nl) with
  | some r => r + 1
  | none => s.length

/-- The loop of `linecount`, which goes on by at least one byte a round. -/
def linecountLoop : Nat → List UInt8 → Nat
  | 0, _ => 0
  | fuel + 1, s => if s = [] then 0 else linecountLoop fuel (s.drop (linelength s)) + 1

def linecount (s : List UInt8) : Nat := linecountLoop s.length s

/-- The lines that the second loop of `lbuf_replace` makes of the text. -/
def newLines : Nat → List UInt8 → List Line
  | 0, _ => []
  | n + 1, s =>
    let l := linelength s
    let lNonl := if 0 < l ∧ s[l - 1]? = some nl then l - 1 else l
    ⟨s.take lNonl ++ [nl], l⟩ :: newLines n (s.drop l)

/-- What `lbuf_replace` makes of a mark; `null` is whether the text is `NULL`. -/
def movedMark (null : Bool) (pos nIns nDel : Nat) (m : Int) : Int :=
  if null ∧ pos ≤ m ∧ m < pos + nDel then -1
  else if pos + nDel ≤ m then m + nIns - nDel
  else if pos + nIns ≤ m then pos + nIns - 1
  else m

def lbufReplace (lb : Lbuf) (s : Option (List UInt8)) (slen pos nDel : Nat) : Lbuf :=
  let text := (s.getD []).take slen
  let nIns := linecount text
  let lb := { lb with
    ln := lb.ln.take pos ++ newLines nIns text ++ lb.ln.drop (pos + nDel)
    -- a line that takes the place of another keeps its global mark
    lnGlob := lb.lnGlob.take (pos + min nIns nDel) ++ List.replicate (nIns - nDel) 0 ++
      lb.lnGlob.drop (pos + nDel)
    mark := fun m => movedMark s.isNone pos nIns nDel (lb.mark m) }
  let lb := lbufMark lb 0x5B pos 0
  lbufMark lb 0x5D (pos + (if nIns ≠ 0 then nIns - 1 else 0) : Nat) 0

/-- The bytes of a line that `lbuf_copy` and `lbuf_wr` take. -/
def Line.text (l : Line) : List UInt8 := l.ln.take l.lnLen

def lbufCopy (lb : Lbuf) (beg fin : Nat) : List UInt8 :=
  ((lb.ln.drop beg).take (fin - beg)).flatMap Line.text

/-! ## 4. The history -/

/-- `strlen` and `uc_dup` see a text up to its first NUL. -/
def ucDup (s : List UInt8) : List UInt8 := s.takeWhile (· ≠ 0)

/-- The operation that `lbuf_opt` adds to the history, before the cursor and the marks are saved
with it. -/
def newLopt (lb : Lbuf) (s : Option (List UInt8)) (slen pos nDel : Nat) : Lopt where
  ins := s.map ucDup
  del := if nDel ≠ 0 then some (lbufCopy lb pos (pos + nDel)) else none
  insLen := slen
  delLen := if nDel ≠ 0 then (lbufCopy lb pos (pos + nDel)).length else 0
  pos := pos
  nIns := linecount ((s.getD []).take slen)
  nDel := nDel
  posOff := 0
  seq := lb.useq
  mark _ := -1
  markOff _ := 0

/-- The marks that `lbuf_opt` saves: those of the first `NMARKS_BASE` that stand on a line to be
deleted. -/
def savedMarks (lb : Lbuf) (pos nDel : Nat) : List (Fin nmarks) :=
  (List.finRange nmarks).filter fun m =>
    m.val < nmarksBase ∧ pos ≤ lb.mark m ∧ lb.mark m < pos + nDel

/-- Whether a change to a single line joins the operation before it. -/
def Lopt.merges (lo : Lopt) (useq : Nat) (s : Option (List UInt8)) (slen pos nDel : Nat) : Bool :=
  lo.seq = useq ∧ lo.pos = pos ∧ lo.nIns = 1 ∧ nDel = 1 ∧ linecount ((s.getD []).take slen) = 1

/-- The operation `lo` with its text replaced. -/
def mergedLopt (lb : Lbuf) (lo : Lopt) (s : Option (List UInt8)) (slen : Nat) : Lopt :=
  (lbufSavepos lb { lo with ins := s.map (·.take slen), insLen := slen }).2

/-- The branch of `lbuf_opt` that changes the last operation `lo` of the history. -/
def mergeOpt (lb : Lbuf) (hist : List Lopt) (lo : Lopt) (s : Option (List UInt8)) (slen : Nat) :
    Lbuf :=
  { (lbufSavepos lb lo).1 with
    hist := hist.dropLast ++ [mergedLopt lb lo s slen]
    histU := hist.length }

/-- The operation that `lbuf_opt` adds to the history. -/
def savedLopt (lb : Lbuf) (s : Option (List UInt8)) (slen pos nDel : Nat) : Lopt :=
  let (lb', lo) := lbufSavepos lb (newLopt lb s slen pos nDel)
  (savedMarks lb' pos nDel).foldl (lbufSavemark lb') lo

/-- The rest of `lbuf_opt`, which adds an operation to the history. -/
def appendOpt (lb : Lbuf) (hist : List Lopt) (s : Option (List UInt8)) (slen pos nDel : Nat) :
    Lbuf :=
  { (lbufSavepos lb (newLopt lb s slen pos nDel)).1 with
    hist := hist ++ [savedLopt lb s slen pos nDel]
    histU := hist.length + 1 }

def lbufOpt (lb : Lbuf) (s : Option (List UInt8)) (slen pos nDel : Nat) : Lbuf :=
  -- what could be redone is dropped first
  let hist := lb.hist.take lb.histU
  match hist.getLast? with
  | some lo =>
    if lo.merges lb.useq s slen pos nDel then mergeOpt lb hist lo s slen
    else appendOpt lb hist s slen pos nDel
  | none => appendOpt lb hist s slen pos nDel

def lbufEditraw (lb : Lbuf) (s : Option (List UInt8)) (slen beg fin : Nat) : Lbuf :=
  let beg := min beg lb.ln.length
  let fin := min fin lb.ln.length
  if beg = fin ∧ s = none then lb
  else lbufReplace (lbufOpt lb s slen beg (fin - beg)) s slen beg (fin - beg)

def lbufEdit (lb : Lbuf) (s : Option (List UInt8)) (beg fin : Nat) : Lbuf :=
  lbufEditraw lb s (match s with | some t => (ucDup t).length | none => 0) beg fin

/-- The body of the loop of `lbuf_undo`. -/
def undoOpt (lb : Lbuf) (lo : Lopt) : Lbuf :=
  (List.finRange nmarks).foldl (fun lb m => lbufLoadmark lb lo m)
    (lbufLoadpos (lbufReplace lb lo.del lo.delLen lo.pos lo.nIns) lo)

/-- The loop of `lbuf_undo`, with `hist_u` counting down. -/
def undoLoop (useq : Nat) : Nat → Lbuf → Lbuf
  | 0, lb => lb
  | u + 1, lb =>
    match lb.hist[u]? with
    | some lo => if lo.seq = useq then undoLoop useq u (undoOpt { lb with histU := u } lo) else lb
    | none => lb

/-- `lbuf_undo`: the result, 1 when there is nothing to undo, and the buffer. -/
def lbufUndo (lb : Lbuf) : Nat × Lbuf :=
  match (lb.hist.take lb.histU).getLast? with
  | none => (1, lb)
  | some lo => (0, undoLoop lo.seq lb.histU lb)

/-- The body of the loop of `lbuf_redo`. -/
def redoOpt (lb : Lbuf) (lo : Lopt) : Lbuf :=
  lbufLoadpos (lbufReplace lb lo.ins lo.insLen lo.pos lo.nDel) lo

/-- The loop of `lbuf_redo`, along the operations from `hist_u` on. -/
def redoLoop (useq : Nat) : List Lopt → Lbuf → Lbuf
  | [], lb => lb
  | lo :: los, lb =>
    if lo.seq = useq then redoLoop useq los (redoOpt { lb with histU := lb.histU + 1 } lo) else lb

/-- `lbuf_redo`: the result, 1 when there is nothing to redo, and the buffer. -/
def lbufRedo (lb : Lbuf) : Nat × Lbuf :=
  match lb.hist.drop lb.histU with
  | [] => (1, lb)
  | lo :: los => (0, redoLoop lo.seq (lo :: los) lb)

def lbufSeq (lb : Lbuf) : Nat :=
  match (lb.hist.take lb.histU).getLast? with
  | some lo => lo.seq
  | none => lb.useqLast

def lbufSaved (lb : Lbuf) (clear : Bool) : Lbuf :=
  let lb := if clear then { lb with hist := [], histU := 0, useqLast := lb.useq } else lb
  { lb with useqZero := lbufSeq lb }

def lbufModified (lb : Lbuf) : Bool := lbufSeq lb ≠ lb.useqZero

def lbufTx (lb : Lbuf) : Lbuf := { lb with useq := lb.useq + 1 }

/-! ## 5. Marks of the ex global command -/

/-- `lbuf_globset`; `dep` is the depth of the command. -/
def lbufGlobset (lb : Lbuf) (pos dep : Nat) : Lbuf :=
  { lb with lnGlob := lb.lnGlob.modify pos (· ||| UInt8.ofNat (1 <<< dep)) }

/-- `lbuf_globget`: the mark, and the buffer with the mark cleared. -/
def lbufGlobget (lb : Lbuf) (pos dep : Nat) : Bool × Lbuf :=
  (0 < ((lb.lnGlob[pos]?.getD 0).toNat &&& 1 <<< dep),
    { lb with lnGlob := lb.lnGlob.modify pos (· &&& ~~~ UInt8.ofNat (1 <<< dep)) })

end Neatvi
