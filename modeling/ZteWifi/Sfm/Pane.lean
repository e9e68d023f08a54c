import Mathlib.Data.List.Sort
import ZteWifi.Net.Fields

/-!
# A pane of the file manager

The listing of a directory and the cursor in it, as `sfm.c` keeps them.  What only goes to the
screen is left out: colours, marks of matched entries, and the reads that drawing makes.

A result `none` ends the program, because the code says so or because it leaves the block behind
`entries` or `matched_indices`.  The watches and `closedir` end it too when they fail; nothing
follows such an end, so they are left out.
-/

open Ascii Net

namespace Sfm

/-! ## 1. Entries -/

def pathMax : Nat := 4096

def nameMax : Nat := 255

/-- `Entry`, with `st_mode` for all of `st`. -/
structure Entry where
  fullpath : List UInt8
  name : List UInt8
  stMode : Nat
  selected : Bool
  deriving DecidableEq

/-- What `calloc` leaves in the block. -/
def Entry.zero : Entry := ⟨[], [], 0, false⟩

inductive Selection
  | dontSelect
  | select
  | invertSelection
  deriving DecidableEq

/-- `select_entry` -/
def Entry.select (s : Selection) (e : Entry) : Entry :=
  { e with selected := if s = .invertSelection then !e.selected else s = .select }

/-- The order of `strncmp`; names have no NUL. -/
def nameLe : List UInt8 → List UInt8 → Bool
  | [], _ => true
  | _ :: _, [] => false
  | a :: s, b :: t => a < b || (a = b && nameLe s t)

/-- `entry_compare` puts `a` before `b` or finds no difference. -/
def entryCompare (a b : Entry) : Prop :=
  a.stMode < b.stMode ∨ a.stMode = b.stMode ∧ nameLe (a.name.take nameMax) (b.name.take nameMax)

instance : DecidableRel entryCompare := fun _ _ => inferInstanceAs (Decidable (_ ∨ _))

/-- What `readdir` gives and what `lstat` says about it; `none` is a file that is gone by then. -/
structure Dirent where
  name : List UInt8
  stMode : Option Nat

/-- What `set_pane_entries` finds: a directory that does not open, or what its two passes read. -/
inductive Scan
  | unreadable
  | passes (counted : List (List UInt8)) (read : List Dirent)

def shouldSkipEntry (showDotfiles : Bool) (name : List UInt8) : Bool :=
  name.head? = some dot ∧ (name = [dot] ∨ name = [dot, dot] ∨ showDotfiles = false)

/-- `get_fullpath`; the path for the root directory is written over at once. -/
def getFullpath (first second : List UInt8) : Option (List UInt8) :=
  if pathMax ≤ first.length + 1 + second.length then none else some (first ++ slash :: second)

/-! ## 2. The pane -/

inductive Direction
  | nextMatch
  | prevMatch

/-- `Pane`.  `entries` and `matched_indices` are the blocks behind the pointers. -/
structure Pane where
  path : List UInt8
  entries : Option (List Entry)
  entryCount : Nat
  startIndex : Int
  currentIndex : Int
  matchedIndices : Option (List Nat)
  matchedCount : Nat
  currentMatch : Int
  deriving DecidableEq

namespace Pane

/-- What can be reached behind `entries`. -/
def block (p : Pane) : List Entry := p.entries.getD []

/-- The entries below `entry_count`, where they are all in the block. -/
def listed (p : Pane) : Option (List Entry) :=
  if p.entryCount ≤ p.block.length then some (p.block.take p.entryCount) else none

/-- `entries[i]` -/
def entryAt (p : Pane) (i : Int) : Option Entry := if i < 0 then none else p.block[i.toNat]?

/-- The second pass of `set_pane_entries` into a block of `n` entries, `i` of them filled. -/
def readEntries (p : Pane) (showDotfiles : Bool) (n : Nat) : Nat → List Dirent → Option (List Entry)
  | _, [] => some []
  | i, d :: ds =>
    if shouldSkipEntry showDotfiles d.name then readEntries p showDotfiles n i ds
    else
      match getFullpath p.path d.name with
      | none => none
      | some full =>
        -- there is one more than the first pass has counted
        if n ≤ i then some []
        else
          match d.stMode with
          -- the entry is kept, without what `lstat` would have said
          | none =>
            (readEntries p showDotfiles n (i + 1) ds).map
              (⟨full, d.name.take (nameMax - 1), 0, false⟩ :: ·)
          -- `set_entry_color` writes the colour, which is left out, into the entry
          -- `start_index + i`; in a pane that is scrolled this may lie behind the block
          | some stMode =>
            (readEntries p showDotfiles n (i + 1) ds).map (⟨full, d.name, stMode, false⟩ :: ·)

def setPaneEntries (showDotfiles : Bool) (p : Pane) : Scan → Option Pane
  -- the old block is freed, but `entry_count` stays
  | .unreadable => some { p with entries := none }
  | .passes counted read =>
    let n := (counted.filter fun name => !shouldSkipEntry showDotfiles name).length
    (p.readEntries showDotfiles n 0 read).map fun es =>
      -- `qsort` leaves the zeroed rest of the block alone
      { p with
        entryCount := es.length
        entries := some (es.insertionSort entryCompare ++
          List.replicate (n - es.length) Entry.zero) }

/-! ## 3. The cursor -/

/-- `move_cursor` behind its guard, on the pane alone. -/
def moveCursor (rows i : Int) (p : Pane) : Pane :=
  let moved := p.currentIndex + i
  let index : Int :=
    if moved < 0 then 0
    else if p.entryCount ≤ moved then p.entryCount - 1
    else moved
  let start :=
    if index < p.startIndex then index
    else if p.startIndex + rows - 2 ≤ index then index - (rows - 3)
    else p.startIndex
  { p with currentIndex := index, startIndex := start }

def moveBottom (rows : Int) (p : Pane) : Pane :=
  let start : Int := p.entryCount - (rows - 2)
  { p with currentIndex := p.entryCount - 1, startIndex := if start < 0 then 0 else start }

def moveTop (p : Pane) : Pane := { p with currentIndex := 0, startIndex := 0 }

/-- The match that `move_to_match` goes to. -/
def nextMatch (p : Pane) : Direction → Int
  | .nextMatch => (p.currentMatch + 1).tmod p.matchedCount
  | .prevMatch => (p.currentMatch - 1 + p.matchedCount).tmod p.matchedCount

/-- `matched_indices[i]` -/
def matchAt (p : Pane) (i : Int) : Option Nat :=
  if i < 0 then none else p.matchedIndices.bind fun block => block[i.toNat]?

def moveToMatch (rows : Int) (d : Direction) (p : Pane) : Option Pane :=
  if p.matchedCount = 0 then some p
  else
    (p.matchAt (p.nextMatch d)).map fun index : Nat =>
      let start : Int :=
        if index < p.startIndex ∨ p.startIndex + rows - 2 ≤ index then
          max 0 (index - (rows - 2).tdiv 2)
        else p.startIndex
      { p with currentMatch := p.nextMatch d, currentIndex := index, startIndex := start }

/-! ## 4. Selections and matches -/

def selectCurEntry (s : Selection) (p : Pane) : Option Pane :=
  (p.entryAt p.currentIndex).map fun _ =>
    { p with
      entries := p.entries.map fun block => block.modify p.currentIndex.toNat (Entry.select s) }

/-- `select_all` behind its guard. -/
def selectAll (s : Selection) (p : Pane) : Option Pane :=
  p.listed.map fun es =>
    { p with
      entries := p.entries.map fun block => es.map (Entry.select s) ++ block.drop p.entryCount }

/-- The result of `get_selected_paths`. -/
def getSelectedPaths (p : Pane) : Option Nat := p.listed.map fun es => es.countP (·.selected)

def cancelSearchHighlight (p : Pane) : Option Pane :=
  if p.matchedIndices = none then some p
  else
    p.listed.map fun _ =>
      { p with matchedIndices := none, matchedCount := 0, currentMatch := -1 }

/-- `update_search_highlight`, which counts on from `matched_count` unless there is a block. -/
def updateSearchHighlight (term : List UInt8) (p : Pane) : Option Pane :=
  p.listed.bind fun es =>
    let base := if p.matchedIndices = none then p.matchedCount else 0
    let found := es.findIdxs fun e => ciHas e.name (cstr term)
    if p.entryCount < base + found.length then none
    else
      some { p with
        matchedIndices := some (List.replicate base 0 ++ found ++
          List.replicate (p.entryCount - (base + found.length)) 0)
        matchedCount := base + found.length }

end Pane

end Sfm
