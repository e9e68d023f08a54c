import ZteWifi.Text.Ascii

/-!
# Regular expressions of the editor

`regcomp` parses a pattern to a tree and emits a program for it, and `regexec` runs the program
from one character of a string after the other.  A string is the list of its bytes, without its NUL;
a `char **` is what is left of the string.
-/

open Ascii

namespace Neatvi

/-! ## 1. Characters -/

/-- `uc_len`: the length of the first character; `regex.c` and `uc.c` carry the same copy. -/
def ucLen (s : List UInt8) : Nat :=
  let c := s.getD 0 0
  if ~~~ c &&& 0xC0 ≠ 0 ∨ s.getD 1 0 = 0 then if 0 < c then 1 else 0
  else if ~~~ c &&& 0x20 ≠ 0 ∨ s.getD 2 0 = 0 then 2
  else if ~~~ c &&& 0x10 ≠ 0 ∨ s.getD 3 0 = 0 then 3
  else if ~~~ c &&& 0x08 ≠ 0 then 4
  else 1

/-- The low bits of a byte, shifted. -/
def bitsOf (c mask : UInt8) (n : Nat) : Nat := (c &&& mask).toNat <<< n

/-- `uc_dec`: the code point of the first character. -/
def ucDec (s : List UInt8) : Nat :=
  let c := s.getD 0 0
  if ~~~ c &&& 0xC0 ≠ 0 ∨ s.getD 1 0 = 0 then c.toNat
  else if ~~~ c &&& 0x20 ≠ 0 ∨ s.getD 2 0 = 0 then
    bitsOf c 0x1F 6 ||| bitsOf (s.getD 1 0) 0x3F 0
  else if ~~~ c &&& 0x10 ≠ 0 ∨ s.getD 3 0 = 0 then
    bitsOf c 0x0F 12 ||| bitsOf (s.getD 1 0) 0x3F 6 ||| bitsOf (s.getD 2 0) 0x3F 0
  else if ~~~ c &&& 0x08 ≠ 0 then
    bitsOf c 0x07 18 ||| bitsOf (s.getD 1 0) 0x3F 12 ||| bitsOf (s.getD 2 0) 0x3F 6 |||
      bitsOf (s.getD 3 0) 0x3F 0
  else c.toNat

/-- `isword` of the character at the start, in `regex.c` and in `rstr.c`. -/
def isword (s : List UInt8) : Bool :=
  let c := s.getD 0 0
  isalnum c || c = 0x5F || 127 < c

/-- `uc_beg` of `regex.c` and of `uc.c` in the string `o`, with positions for pointers. -/
def ucBeg (o : List UInt8) : Nat → Nat
  | 0 => 0
  | s + 1 => if o.getD (s + 1) 0 &&& 0xC0 = 0x80 then ucBeg o s else s + 1

/-- The flags of `regcomp` and `regexec` that are looked at. -/
structure ReFlg where
  nosub : Bool := false
  icase : Bool := false
  newline : Bool := false
  notbol : Bool := false
  noteol : Bool := false
  eolstop : Bool := false
  deriving DecidableEq, Repr

def ReFlg.or (a b : ReFlg) : ReFlg where
  nosub := a.nosub || b.nosub
  icase := a.icase || b.icase
  newline := a.newline || b.newline
  notbol := a.notbol || b.notbol
  noteol := a.noteol || b.noteol
  eolstop := a.eolstop || b.eolstop

/-- The code point without its case, where case is ignored. -/
def foldCase (flg : ReFlg) (c : Nat) : Nat :=
  if flg.icase ∧ c < 128 ∧ isupper c.toUInt8 then (tolower c.toUInt8).toNat else c

/-! ## 2. Atoms -/

/-- `RA_*` -/
inductive Ra
  | chr
  | beg
  | fin
  | any
  | brk
  | wbeg
  | wend
  deriving DecidableEq, Repr

/-- `struct ratom`; the argument is empty where it is `NULL`. -/
structure Ratom where
  ra : Ra
  s : List UInt8
  deriving DecidableEq, Repr

/-- The inner loop of `brk_len`, which goes on to the next `]`. -/
def brkSkip (s : List UInt8) : Nat → Nat → Nat
  | 0, n => n
  | fuel + 1, n =>
    if s.getD n 0 ≠ 0 ∧ s.getD n 0 ≠ 0x5D then brkSkip s fuel (n + 1) else n

def brkLenLoop (s : List UInt8) : Nat → Nat → Nat
  | 0, n => n
  | fuel + 1, n =>
    if s.getD n 0 ≠ 0 ∧ s.getD n 0 ≠ 0x5D then
      let n :=
        if s.getD n 0 = 0x5B ∧ (s.getD (n + 1) 0 = 0x3A ∨ s.getD (n + 1) 0 = 0x3D) then
          brkSkip s s.length n
        else n
      brkLenLoop s fuel (if s.getD n 0 ≠ 0 then n + 1 else n)
    else n

/-- `brk_len`: the length of the bracket expression at the start. -/
def brkLen (s : List UInt8) : Nat :=
  let n := 1
  let n := if s.getD n 0 = 0x5E then n + 1 else n
  let n := if s.getD n 0 = 0x5D then n + 1 else n
  let n := brkLenLoop s s.length n
  if s.getD n 0 = 0x5D then n + 1 else n

def ratomReadbrk (pat : List UInt8) : Ratom × List UInt8 :=
  (⟨.brk, pat.take (brkLen pat)⟩, pat.drop (brkLen pat))

/-- `strchr(".^$[(|)*?+{\\", c)`, which finds the NUL as well. -/
def endsLiteral (c : UInt8) : Bool := c = 0 || (bytes ".^$[(|)*?+\x7b\\").contains c

/-- `strchr("*?+{", c)` of a byte that is not NUL. -/
def repeats (c : UInt8) : Bool := c ≠ 0 && (bytes "*?+\x7b").contains c

/-- The loop of `ratom_read` over the bytes of a literal; `none` is a loop that does not end. -/
def literalLoop (pat : List UInt8) : Nat → Nat → Option Nat
  | 0, _ => none
  | fuel + 1, s =>
    if s = 0 ∨ endsLiteral (pat.getD s 0) = false then
      if s ≠ 0 ∧ repeats (pat.getD (s + ucLen (pat.drop s)) 0) then some s
      else literalLoop pat fuel (s + ucLen (pat.drop s))
    else some s

/-- The default case of `ratom_read`. -/
def ratomReadChr (pat : List UInt8) : Option (Ratom × List UInt8) :=
  match literalLoop pat (pat.length + 1) 0 with
  | some len => some (⟨.chr, pat.take len⟩, pat.drop len)
  | none => none

def ratomRead (pat : List UInt8) : Option (Ratom × List UInt8) :=
  let c := pat.getD 0 0
  if c = 0x2E then some (⟨.any, []⟩, pat.drop 1)
  else if c = 0x5E then some (⟨.beg, []⟩, pat.drop 1)
  else if c = 0x24 then some (⟨.fin, []⟩, pat.drop 1)
  else if c = 0x5B then some (ratomReadbrk pat)
  else if c = 0x5C then
    if pat.getD 1 0 = 0x3C then some (⟨.wbeg, []⟩, pat.drop 2)
    else if pat.getD 1 0 = 0x3E then some (⟨.wend, []⟩, pat.drop 2)
    else ratomReadChr (pat.drop 1)
  else ratomReadChr pat

/-! ## 3. Matching an atom -/

def brkClasses : List (List UInt8 × List UInt8) := [
  (bytes ":alnum:", bytes "a-zA-Z0-9"),
  (bytes ":alpha:", bytes "a-zA-Z"),
  (bytes ":blank:", bytes " \t"),
  (bytes ":digit:", bytes "0-9"),
  (bytes ":lower:", bytes "a-z"),
  (bytes ":print:", bytes " -~"),
  (bytes ":punct:", bytes "][!\"#$%&'()*+,./:;<=>?@\\^_`\x7b|\x7d~-"),
  (bytes ":space:", bytes " \t\r\n" ++ [0x0B, 0x0C]),
  (bytes ":upper:", bytes "A-Z"),
  (bytes ":word:", bytes "a-zA-Z0-9_"),
  (bytes ":xdigit:", bytes "a-fA-F0-9")]

/-- The loop of `brk_match` from `p` on: whether an item of the expression holds the code point.
`cls` is `brk_match` of the text of a class; `first` is whether `p` is at the start. -/
def brkItems (cls : List UInt8 → Bool) (c : Nat) (flg : ReFlg) :
    Nat → Bool → List UInt8 → Bool
  | 0, _, _ => false
  | fuel + 1, first, p =>
    if p.getD 0 0 ≠ 0 ∧ (first ∨ p.getD 0 0 ≠ 0x5D) then
      if p.getD 0 0 = 0x5B ∧ p.getD 1 0 = 0x3A then
        if brkClasses.any fun (cc, cp) => cc.isPrefixOf (p.drop 1) && cls cp then true
        else brkItems cls c flg fuel false (p.drop (brkLen p))
      else
        let lo := ucDec p
        let p := p.drop (ucLen p)
        let (hi, p) :=
          if p.getD 0 0 = 0x2D ∧ p.getD 1 0 ≠ 0 ∧ p.getD 1 0 ≠ 0x5D then
            (ucDec (p.drop 1), (p.drop 1).drop (ucLen (p.drop 1)))
          else (lo, p)
        if foldCase flg lo ≤ c ∧ c ≤ foldCase flg hi then true
        else brkItems cls c flg fuel false p
    else false

/-- `brk_match`, true where the code point is matched; `cls` is `brk_match` of a class. -/
def brkMatchWith (cls : List UInt8 → Bool) (brk : List UInt8) (c : Nat) (flg : ReFlg) : Bool :=
  let neg : Bool := brk.getD 0 0 = 0x5E
  let p := if neg then brk.drop 1 else brk
  -- either a hit of an expression without a mark, or none of one with it
  xor neg (brkItems cls (foldCase flg c) flg p.length true p)

/-- `brk_match`.  The texts of the classes name no classes. -/
def brkMatch (brk : List UInt8) (c : Nat) (flg : ReFlg) : Bool :=
  brkMatchWith (fun cp => brkMatchWith (fun _ => false) cp (foldCase flg c) flg) brk c flg

/-- The loop of `ratom_match` over a literal whose case is ignored, from `pos` on. -/
def matchFolded (ra r : List UInt8) (flg : ReFlg) : Nat → Nat → Option Nat
  | 0, pos => some pos
  | fuel + 1, pos =>
    if ra.getD pos 0 ≠ 0 then
      if foldCase flg (ucDec (ra.drop pos)) = foldCase flg (ucDec (r.drop pos)) then
        matchFolded ra r flg fuel (pos + ucLen (ra.drop pos))
      else none
    else some pos

/-- `ratom_match` at the position `s` of the string `o`: the position behind the match. -/
def ratomMatch (ra : Ratom) (o : List UInt8) (s : Nat) (flg : ReFlg) : Option Nat :=
  let r := o.drop s
  match ra.ra with
  | .chr =>
    if flg.icase then (matchFolded ra.s r flg ra.s.length 0).map (s + ·)
    else if ra.s.isPrefixOf r then some (s + ra.s.length) else none
  | .any =>
    if r.getD 0 0 = 0 ∨ (r.getD 0 0 = 0x0A ∧ flg.newline) then none else some (s + ucLen r)
  | .brk =>
    let c := ucDec r
    if c = 0 ∨ (c = 0x0A ∧ flg.newline ∧ ra.s.getD 1 0 = 0x5E) then none
    else if brkMatch (ra.s.drop 1) c flg then some (s + ucLen r) else none
  | .beg =>
    if s = 0 then if flg.notbol then none else some s
    else if o.getD (s - 1) 0 = 0x0A then if flg.newline then some s else none
    else none
  | .fin =>
    if r.getD 0 0 = 0 then if flg.noteol then none else some s
    else if r.getD 0 0 = 0x0A then if flg.newline then some s else none
    else none
  | .wbeg =>
    if (s = 0 ∨ isword (o.drop (ucBeg o (s - 1))) = false) ∧ isword r then some s else none
  | .wend =>
    if s ≠ 0 ∧ isword (o.drop (ucBeg o (s - 1))) ∧ (r.getD 0 0 = 0 ∨ isword r = false) then some s
    else none

/-! ## 4. Trees -/

/-- `RN_*` -/
inductive Rn
  | atom
  | cat
  | alt
  | grp
  deriving DecidableEq, Repr

/-- `struct rnode *` -/
inductive Rnode
  | null
  | node (rn : Rn) (ra : Ratom) (c1 c2 : Rnode) (mincnt : Nat) (maxcnt : Int) (grp : Nat)
  deriving DecidableEq, Repr

def rnodeMake (rn : Rn) (c1 c2 : Rnode) : Rnode := .node rn ⟨.chr, []⟩ c1 c2 1 1 0

/-- The node with the number of its repetitions. -/
def Rnode.setCnt (mincnt : Nat) (maxcnt : Int) : Rnode → Rnode
  | .null => .null
  | .node rn ra c1 c2 _ _ grp => .node rn ra c1 c2 mincnt maxcnt grp

/-- `INT_MAX` -/
abbrev intMax : Nat := 2147483647

/-- The result of an operation on `int`; `none` is that it overflows. -/
def checkInt (n : Int) : Option Int := if -intMax - 1 ≤ n ∧ n ≤ intMax then some n else none

/-- What parsing gives: the tree and the rest of the pattern.  `none` is a pattern behind whose end
the parser reads, or one with a number that overflows. -/
abbrev Parsed := Option (Rnode × List UInt8)

/-- The tree of `rnode_grp`, which is called at a bracket; `parse` is `rnode_parse`. -/
def rnodeGrp (parse : List UInt8 → Parsed) (pat : List UInt8) : Parsed :=
  let pat := pat.drop 1
  let close (rnode : Rnode) (pat : List UInt8) : Parsed :=
    if pat.getD 0 0 ≠ 0x29 then some (.null, pat)
    else some (rnodeMake .grp rnode .null, pat.drop 1)
  if pat.getD 0 0 ≠ 0x29 then
    match parse pat with
    | none => none
    | some (.null, pat) => some (.null, pat)
    | some (rnode, pat) => close rnode pat
  else close .null pat

/-- The loop over the digits of a number, of which `n` is read. -/
def readCnt (n : Nat) : List UInt8 → Option (Nat × List UInt8)
  | [] => some (n, [])
  | c :: pat =>
    if isdigit c then
      -- the byte is added before the zero is taken off it
      if n * 10 + c.toNat ≤ intMax then readCnt (n * 10 + (c.toNat - 0x30)) pat else none
    else some (n, c :: pat)

/-- The upper bound between braces, which is read behind the lower one. -/
def readMaxcnt (mincnt : Nat) (pat : List UInt8) : Option (Int × List UInt8) :=
  if pat.getD 0 0 = 0x2C then
    let pat := pat.drop 1
    if pat.getD 0 0 = 0x7D then some (-1, pat)
    else (readCnt 0 pat).map fun (n, pat) => ((n : Int), pat)
  else some ((mincnt : Int), pat)

/-- The bounds between braces, and what is behind them; the brace at the end is not looked at. -/
def readBounds (pat : List UInt8) : Option (Nat × Int × List UInt8) := do
  let (mincnt, pat) ← readCnt 0 pat
  let (maxcnt, pat) ← readMaxcnt mincnt pat
  if pat.getD 0 0 = 0 then none else some (mincnt, maxcnt, pat.drop 1)

/-- The repetitions that `rnode_atom` reads behind a node. -/
def readRep (rnode : Rnode) (pat : List UInt8) : Parsed :=
  let (rnode, pat) :=
    if pat.getD 0 0 = 0x2A ∨ pat.getD 0 0 = 0x3F then
      (rnode.setCnt 0 (if pat.getD 0 0 = 0x2A then -1 else 1), pat.drop 1)
    else (rnode, pat)
  let (rnode, pat) :=
    if pat.getD 0 0 = 0x2B then (rnode.setCnt 1 (-1), pat.drop 1) else (rnode, pat)
  if pat.getD 0 0 = 0x7B then
    match readBounds (pat.drop 1) with
    | some (mincnt, maxcnt, pat) => some (rnode.setCnt mincnt maxcnt, pat)
    | none => none
  else some (rnode, pat)

def rnodeAtom (parse : List UInt8 → Parsed) (pat : List UInt8) : Parsed :=
  let c := pat.getD 0 0
  if c = 0 then some (.null, pat)
  else if c = 0x7C ∨ c = 0x29 then some (.null, pat)
  else if c = 0x28 then
    match rnodeGrp parse pat with
    | none => none
    | some (.null, pat) => some (.null, pat)
    | some (rnode, pat) => readRep rnode pat
  else
    match ratomRead pat with
    | none => none
    | some (ra, pat) => readRep (.node .atom ra .null .null 1 1 0) pat

def rnodeSeq (parse : List UInt8 → Parsed) : Nat → List UInt8 → Parsed
  | 0, _ => none
  | fuel + 1, pat =>
    match rnodeAtom parse pat with
    | none => none
    | some (.null, pat) => some (.null, pat)
    | some (c1, pat) =>
      match rnodeSeq parse fuel pat with
      | none => none
      | some (.null, pat) => some (c1, pat)
      | some (c2, pat) => some (rnodeMake .cat c1 c2, pat)

def rnodeParse : Nat → List UInt8 → Parsed
  | 0, _ => none
  | fuel + 1, pat =>
    match rnodeSeq (rnodeParse fuel) (pat.length + 1) pat with
    | none => none
    | some (c1, pat) =>
      if pat.getD 0 0 ≠ 0x7C then some (c1, pat)
      else
        match rnodeParse fuel (pat.drop 1) with
        | none => none
        | some (c2, pat) => some (rnodeMake .alt c1 c2, pat)

/-- What `rnode_count` allocates for the copies of a node of `n` instructions. -/
def countCopies (n : Int) (mincnt : Nat) (maxcnt : Int) : Option Int :=
  if maxcnt < 0 then do checkInt ((← checkInt ((← checkInt (mincnt + 1)) * n)) + 2)
  else do
    let m ← checkInt ((← checkInt (mincnt + maxcnt)) * n)
    checkInt ((← checkInt (m + maxcnt)) - mincnt)

/-- What `rnode_count` makes of the number `n` for a node that is repeated. -/
def countRep (n : Int) (mincnt : Nat) (maxcnt : Int) : Option Int :=
  if mincnt = 0 ∧ maxcnt = 0 then some 0
  else if mincnt = 1 ∧ maxcnt = 1 then some n
  else if mincnt = 0 then do checkInt ((← countCopies n mincnt maxcnt) + 1)
  else countCopies n mincnt maxcnt

/-- `rnode_count`: the number of instructions that are allocated for a tree. -/
def rnodeCount : Rnode → Option Int
  | .null => some 0
  | .node rn _ c1 c2 mincnt maxcnt _ =>
    let n : Option Int :=
      match rn with
      | .atom => some 1
      | .cat => do checkInt ((← rnodeCount c1) + (← rnodeCount c2))
      | .alt => do checkInt ((← checkInt ((← rnodeCount c1) + (← rnodeCount c2))) + 2)
      | .grp => do checkInt ((← rnodeCount c1) + 2)
    n.bind fun n => countRep n mincnt maxcnt

/-- `rnode_grpnum`: the tree with its groups numbered from `num` on, and their number. -/
def rnodeGrpnum : Rnode → Nat → Rnode × Nat
  | .null, _ => (.null, 0)
  | .node rn ra c1 c2 mincnt maxcnt grp, num =>
    let (grp, cur) := if rn = .grp then (num, 1) else (grp, 0)
    let (c1, n1) := rnodeGrpnum c1 (num + cur)
    let (c2, n2) := rnodeGrpnum c2 (num + (cur + n1))
    (.node rn ra c1 c2 mincnt maxcnt grp, cur + n1 + n2)

/-! ## 5. Programs -/

/-- `RI_*` -/
inductive Ri
  | atom
  | fork
  | jump
  | mark
  | fin
  deriving DecidableEq, Repr

/-- `struct rinst` -/
structure Rinst where
  ri : Ri
  ra : Ratom := ⟨.chr, []⟩
  dst : Int := 0
  mark : Nat := 0
  deriving DecidableEq, Repr

/-- `struct regex`; the number of instructions is the length of the program. -/
structure Regex where
  p : List Rinst
  flg : ReFlg

/-- `p->p[i].dst = dst` -/
def setDst (p : List Rinst) (i : Nat) (dst : Int) : List Rinst :=
  p.modify i fun ri => { ri with dst := dst }

/-- `rnode_emitnorep`; `e1` and `e2` emit the children. -/
def rnodeEmitnorep (rn : Rn) (ra : Ratom) (e1 e2 : List Rinst → List Rinst) (grp : Nat)
    (p : List Rinst) : List Rinst :=
  match rn with
  | .alt =>
    let fork := p.length
    let p := e1 (p ++ [{ ri := .fork }])
    let done := p.length
    let p := setDst (p ++ [{ ri := .jump }]) fork (done + 1)
    let p := e2 p
    setDst p done p.length
  | .cat => e2 (e1 p)
  | .grp => e1 (p ++ [{ ri := .mark, mark := 2 * grp }]) ++ [{ ri := .mark, mark := 2 * grp + 1 }]
  | .atom => p ++ [{ ri := .atom, ra := ra }]

/-- The second loop of `rnode_emit`: the program, and the last fork, which leads to the fork before
it. -/
def emitForks (emit : List Rinst → List Rinst) : Nat → List Rinst × Int → List Rinst × Int
  | 0, st => st
  | n + 1, (p, jump) =>
    emitForks emit n (emit (p ++ [{ ri := .fork, dst := jump }]), p.length)

/-- The third loop of `rnode_emit`, which sends the forks from `jump` on to the end of the
program. -/
def patchForks (stop : Int) : Nat → Int → List Rinst → List Rinst
  | 0, _, p => p
  | fuel + 1, jump, p =>
    if 0 ≤ jump then
      patchForks stop fuel ((p[jump.toNat]?.map Rinst.dst).getD (-1)) (setDst p jump.toNat stop)
    else p

/-- `rnode_emit` of a node that `emit` emits once. -/
def emitRep (emit : List Rinst → List Rinst) (mincnt : Nat) (maxcnt : Int) (p : List Rinst) :
    List Rinst :=
  if mincnt = 0 ∧ maxcnt = 0 then p
  else if mincnt = 1 ∧ maxcnt = 1 then emit p
  else
    let p := Nat.repeat emit mincnt p
    let (p, jump) := emitForks emit (maxcnt - mincnt).toNat (p, -1)
    let p := patchForks p.length p.length jump p
    if maxcnt < 0 then
      let fork := p.length
      let p := emit (p ++ [{ ri := .fork }])
      let p := p ++ [{ ri := .jump, dst := fork }]
      setDst p fork p.length
    else p

def rnodeEmit : Rnode → List Rinst → List Rinst
  | .null, p => p
  | .node rn ra c1 c2 mincnt maxcnt grp, p =>
    emitRep (rnodeEmitnorep rn ra (rnodeEmit c1) (rnodeEmit c2) grp) mincnt maxcnt p

/-- The program that `regcomp` emits for a tree. -/
def emitProgram (rnode : Rnode) : List Rinst :=
  rnodeEmit rnode [{ ri := .mark, mark := 0 }] ++ [{ ri := .mark, mark := 1 }, { ri := .fin }]

/-- The tree of a pattern, with its groups numbered. -/
def regcompTree (pat : List UInt8) : Option Rnode :=
  (rnodeParse (pat.length + 1) pat).map fun r => (rnodeGrpnum r.1 1).1

/-- `sizeof(struct rinst)`, where an `int` and a pointer have four bytes. -/
abbrev rinstSize : Nat := 20

/-- `SIZE_MAX` -/
abbrev sizeMax : Nat := 4294967295

/-- The number of instructions that are allocated for the program of a tree; `none` is also that the
bytes of so many do not fit a `size_t`. -/
def programSize (rnode : Rnode) : Option Int := do
  let n ← checkInt ((← rnodeCount rnode) + 3)
  if 0 ≤ n ∧ n * rinstSize ≤ sizeMax then some n else none

/-- The number of instructions for which `regcomp` allocates room. -/
def regcompSize (pat : List UInt8) : Option Int :=
  (rnodeParse (pat.length + 1) pat).bind fun r => programSize r.1

/-- `regcomp`; `some none` is a failure, and `none` is that a number overflows, that the pattern is
read behind its end or that the program is written behind its room. -/
def regcomp (pat : List UInt8) (flg : ReFlg) : Option (Option Regex) := do
  let n ← regcompSize pat
  let rnode ← regcompTree pat
  if rnode = .null then some none
  else if (emitProgram rnode).length ≤ n then some (some ⟨emitProgram rnode, flg⟩)
  else none

/-! ## 6. Running a program -/

/-- `struct rstate`, without the string, the flags and `subcnt`, which do not change, and the sizes
of its arrays; the last saved state is the first of the list. -/
structure Rstate where
  s : Nat
  pc : Nat
  mark : List (Nat × Nat)
  markPos : Nat
  saved : List (Nat × Nat × Nat)

def rstatePush (rs : Rstate) (pc : Nat) : Rstate :=
  { rs with saved := (rs.s, rs.markPos, pc) :: rs.saved }

/-- `rstate_pop`; `none` is that nothing is saved. -/
def rstatePop (rs : Rstate) : Option Rstate :=
  match rs.saved with
  | [] => none
  | (s, markPos, pc) :: saved => some { rs with s := s, markPos := markPos, pc := pc, saved := saved }

def rstateMark (rs : Rstate) (subcnt mark : Nat) : Rstate :=
  if subcnt * 2 ≤ mark then rs
  else
    { rs with
      mark := rs.mark.take rs.markPos ++ (mark, rs.s) :: rs.mark.drop (rs.markPos + 1)
      markPos := rs.markPos + 1 }

/-- `psub[i]`, as `rm_so` and `rm_eo`. -/
abbrev Regmatch := Int × Int

/-- What a mark is written to. -/
def setMatch (sub : List Regmatch) (m : Nat × Nat) : List Regmatch :=
  sub.modify (m.1 >>> 1) fun r => if m.1 &&& 1 ≠ 0 then (r.1, m.2) else (m.2, r.2)

def rstateMarks (rs : Rstate) (sub : List Regmatch) : List Regmatch :=
  (rs.mark.take rs.markPos).foldl setMatch sub

/-- A round of the loop of `re_rec`: the next state, or the result. -/
def recStep (re : Regex) (o : List UInt8) (flg : ReFlg) (subcnt : Nat) (rs : Rstate) :
    Nat × Option Rstate :=
  match re.p[rs.pc]? with
  | none => (1, rstatePop rs)
  | some ri =>
    match ri.ri with
    | .atom =>
      match ratomMatch ri.ra o rs.s flg with
      | some s => (0, some { rs with s := s, pc := rs.pc + 1 })
      | none => (1, rstatePop rs)
    | .mark => (0, some { rstateMark rs subcnt ri.mark with pc := rs.pc + 1 })
    | .jump => (0, some { rs with pc := ri.dst.toNat })
    | .fork => (0, some { rstatePush rs ri.dst.toNat with pc := rs.pc + 1 })
    | .fin => (0, none)

/-- `re_rec`, with the state that it leaves; `none` is a loop that has not ended. -/
def reRec (re : Regex) (o : List UInt8) (flg : ReFlg) (subcnt : Nat) :
    Nat → Rstate → Option (Nat × Rstate)
  | 0, _ => none
  | fuel + 1, rs =>
    match recStep re o flg subcnt rs with
    | (_, some rs) => reRec re o flg subcnt fuel rs
    | (r, none) => some (r, rs)

/-- The loop of `regexec`: `prev` is the start that was tried last and `s` the next one.  The result
is the state of the first match. -/
def regexecLoop (re : Regex) (o : List UInt8) (flg : ReFlg) (subcnt fuel : Nat) :
    Nat → Nat → Nat → Rstate → Option (Option Rstate)
  | 0, _, _, _ => none
  | n + 1, prev, s, rs =>
    if o.getD prev 0 ≠ 0 ∧ ¬ (flg.eolstop ∧ prev ≠ 0 ∧ o.getD prev 0 = 0x0A) then
      match reRec re o (re.flg.or flg) subcnt fuel
          { rs with s := s, pc := 0, markPos := 0, saved := [] } with
      | none => none
      | some (0, rs) => some (some rs)
      | some (_, rs) => regexecLoop re o flg subcnt fuel n s (s + ucLen (o.drop s)) rs
    else some none

/-- `regexec`: whether the string matches (0) or not (1), and `psub`.  `fuel` bounds the rounds of
one attempt. -/
def regexec (re : Regex) (o : List UInt8) (nsub : Nat) (flg : ReFlg) (fuel : Nat) :
    Option (Nat × List Regmatch) :=
  let sub := List.replicate nsub ((-1, -1) : Regmatch)
  (regexecLoop re o flg (if flg.nosub then 0 else nsub) fuel (o.length + 2) 0 0
    ⟨0, 0, [], 0, []⟩).map fun
  | some rs => (0, rstateMarks rs sub)
  | none => (1, sub)

end Neatvi
