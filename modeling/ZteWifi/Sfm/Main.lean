import ZteWifi.Lib.Runs
import ZteWifi.Sfm.Pane

/-!
# The commands of the file manager

The two panes of `sfm.c`, the commands of `nkeys`, the questions they ask and the signals of the
watches, each as one event.  A signal comes where the program waits for a key, also while it waits
for the answer to a question; during `execute_command` it is ignored.

What a directory holds is given with the event that reads it, so files come and go as they like.
The paths that `copy_entries` keeps are left out, and so is what other programs do.
-/

open Ascii Net

namespace Sfm

/-! ## 1. The state -/

inductive Side
  | left
  | right
  deriving DecidableEq

def Side.other : Side → Side
  | .left => .right
  | .right => .left

inductive Mode
  | normalMode
  | visualMode
  | searchMode
  deriving DecidableEq

/-- The callers of `get_user_input`. -/
inductive Question
  | chmod
  | newFile
  | newDir
  | delete
  | search
  deriving DecidableEq

/-- The size of the buffer for the answer. -/
def Question.size : Question → Nat
  | .chmod => 32
  | .newFile | .newDir | .search => nameMax
  | .delete => 4

/-- A question that waits for its answer. -/
structure Prompt where
  question : Question
  input : List UInt8
  deriving DecidableEq

structure State where
  panes : Side → Pane
  paneIdx : Side
  mode : Mode
  showDotfiles : Bool
  rows : Int
  selectedCount : Nat
  asking : Option Prompt

/-- The arguments of `chmod`; the path is `none` outside the block of the listing. -/
structure Chmod where
  mode : List UInt8
  path : Option (List UInt8)
  deriving DecidableEq

namespace State

def setPane (s : State) (side : Side) (p : Pane) : State :=
  { s with panes := Function.update s.panes side p }

/-- `*current_pane` -/
def current (s : State) : Pane := s.panes s.paneIdx

def setCurrent (s : State) (p : Pane) : State := s.setPane s.paneIdx p

def ask (s : State) (q : Question) : State := { s with asking := some ⟨q, []⟩ }

end State

/-- `get_term_size`, where `row` is 0 if the terminal does not tell. -/
def getTermSize (row : Nat) : Int := if row = 0 then 30 else row

/-- A pane before its first listing. -/
def Pane.fresh (path : List UInt8) : Pane := ⟨path, none, 0, 0, 0, none, 0, 0⟩

/-- Both panes. -/
def both (left right : Pane) : Side → Pane
  | .left => left
  | .right => right

/-- What `check_dir` says about the entry under the cursor. -/
inductive CheckDir
  | directory (scan : Scan)
  | notDirectory
  | failed

/-- The functions of `nkeys`, with their arguments. -/
inductive Command
  | moveCursor (i : Int)
  | openEntry (found : CheckDir)
  | cdToParent (scan : Scan)
  | quit
  | moveBottom
  | moveTop
  | switchPane
  | toggleDotfiles (left right : Scan)
  | refresh
  | createNewFile
  | createNewDir
  | deleteEntry
  | copyEntries
  | pasteEntries
  | moveEntries
  | visualMode
  | normalMode
  | selectCurEntry (s : Selection)
  | selectAll (s : Selection)
  | startSearch
  | moveToMatch (d : Direction)
  | chmodEntry

/-- The keys of `get_user_input`. -/
inductive PromptKey
  | esc
  | enter
  | backspace
  | char (c : UInt8)

/-- The path without what follows its last slash. -/
def parentPath (path : List UInt8) : List UInt8 :=
  let parent := if slash ∈ path then ((path.reverse.dropWhile (· ≠ slash)).drop 1).reverse else path
  if parent = [] then [slash] else parent

namespace State

def moveCursor (i : Int) (s : State) : Option State :=
  if s.current.entryCount = 0 then some s
  else
    let p := s.current.moveCursor s.rows i
    if s.mode = .visualMode then (p.selectCurEntry .select).map s.setCurrent
    else some (s.setCurrent p)

/-- What `open_entry` and `cd_to_parent` do with a new path: the cursor goes to the top behind
`set_pane_entries`. -/
def enter (path : List UInt8) (scan : Scan) (s : State) : Option State :=
  (Pane.setPaneEntries s.showDotfiles { s.current with path := path } scan).map fun p =>
    s.setCurrent p.moveTop

def openEntry (found : CheckDir) (s : State) : Option State :=
  if s.current.entryCount < 1 then some s
  else
    (s.current.entryAt s.current.currentIndex).bind fun entry =>
      match found with
      | .directory scan => s.enter entry.fullpath scan
      -- another program opens the file; the new size behind it is an event of its own
      | .notDirectory => some s
      | .failed => some s

def cdToParent (scan : Scan) (s : State) : Option State :=
  if s.current.path = [slash] then some s else s.enter (parentPath s.current.path) scan

def switchPane (s : State) : State := { s with paneIdx := s.paneIdx.other }

def toggleDotfiles (left right : Scan) (s : State) : Option State :=
  ((s.panes .left).setPaneEntries (!s.showDotfiles) left).bind fun l =>
    ((s.panes .right).setPaneEntries (!s.showDotfiles) right).map fun r =>
      { s with showDotfiles := !s.showDotfiles, panes := both l r }

/-- The selected entries, or else the one under the cursor. -/
def select (s : State) : Option State :=
  s.current.getSelectedPaths.map fun n => { s with selectedCount := if n < 1 then 1 else n }

def copyEntries (s : State) : Option State :=
  s.select.map fun s => { s with mode := .normalMode }

def deleteEntry (s : State) : Option State :=
  if s.current.entryCount = 0 ∨ s.current.entryCount ≤ s.current.currentIndex then some s
  else s.select.map fun s => s.ask .delete

/-- `paste_entries` and `move_entries` forget what has been copied. -/
def forget (s : State) : State := { s with selectedCount := 0 }

def normalMode (s : State) : Option State :=
  (if s.mode = .searchMode then s.current.cancelSearchHighlight else some s.current).map fun p =>
    { s.setCurrent p with mode := .normalMode }

def visualMode (s : State) : Option State :=
  if s.current.entryCount = 0 then some s
  else if s.mode = .visualMode then s.normalMode
  else
    (s.current.selectCurEntry .select).map fun p => { s.setCurrent p with mode := .visualMode }

def selectAll (sel : Selection) (s : State) : Option State :=
  if s.current.entryCount = 0 then some s else (s.current.selectAll sel).map s.setCurrent

/-- `start_search` up to its question. -/
def startSearch (s : State) : Option State :=
  if s.mode = .searchMode then s.normalMode
  else some ({ s with mode := .searchMode }.ask .search)

/-- `chmod_entry` up to its question. -/
def chmodEntry (s : State) : State := if s.current.entryCount < 1 then s else s.ask .chmod

/-- `handle_keypress` -/
def command (s : State) : Command → Option State
  | .moveCursor i => s.moveCursor i
  | .openEntry found => s.openEntry found
  | .cdToParent scan => s.cdToParent scan
  | .quit => none
  | .moveBottom => some (s.setCurrent (s.current.moveBottom s.rows))
  | .moveTop => some (s.setCurrent s.current.moveTop)
  | .switchPane => some s.switchPane
  | .toggleDotfiles left right => s.toggleDotfiles left right
  -- the signal it sends is an event of its own
  | .refresh => some s
  | .createNewFile => some (s.ask .newFile)
  | .createNewDir => some (s.ask .newDir)
  | .deleteEntry => s.deleteEntry
  | .copyEntries => s.copyEntries
  | .pasteEntries | .moveEntries => some s.forget
  | .visualMode => s.visualMode
  | .normalMode => s.normalMode
  | .selectCurEntry sel => (s.current.selectCurEntry sel).map s.setCurrent
  | .selectAll sel => s.selectAll sel
  | .startSearch => s.startSearch
  | .moveToMatch d => (s.current.moveToMatch s.rows d).map s.setCurrent
  | .chmodEntry => some s.chmodEntry

/-! ## 3. The answers -/

/-- `create_new_file` and `create_new_dir` behind their question, where `get_fullpath` may end the
program. -/
def createNew (name : List UInt8) (s : State) : Option State :=
  (getFullpath s.current.path name).map fun _ => s

/-- `delete_entry` behind its question. -/
def confirmDelete (confirmation : List UInt8) (s : State) : State :=
  if confirmation = bytes "yes" then { s.forget with mode := .normalMode } else s.forget

/-- `start_search` behind its question, which has been left. -/
def leaveSearch (s : State) : Option State :=
  s.current.cancelSearchHighlight.map fun p => { s.setCurrent p with mode := .normalMode }

/-- `start_search` behind its question. -/
def search (term : List UInt8) (s : State) : Option State :=
  (s.current.updateSearchHighlight term).map fun p =>
    { s.setCurrent { p with currentMatch := -1 } with mode := .normalMode }

/-- What `chmod_entry` spawns. -/
def chmod (mode : List UInt8) (s : State) : Chmod :=
  ⟨mode, (s.current.entryAt s.current.currentIndex).map Entry.fullpath⟩

/-- What a caller of `get_user_input` does with the answer; `none` is `XK_ESC`. -/
def answer (s : State) : Question → Option (List UInt8) → Option (State × Option Chmod)
  | .chmod, none => some (s, none)
  | .chmod, some mode => some (s, some (s.chmod mode))
  | .newFile, none | .newDir, none => some (s, none)
  | .newFile, some name | .newDir, some name => (s.createNew name).map (·, none)
  | .delete, none => some (s.forget, none)
  | .delete, some confirmation => some (s.confirmDelete confirmation, none)
  | .search, none => s.leaveSearch.map (·, none)
  | .search, some term => (s.search term).map (·, none)

/-- One turn of the loop of `get_user_input`. -/
def getUserInput (s : State) (q : Prompt) : PromptKey → Option (State × Option Chmod)
  | .esc => { s with asking := none }.answer q.question none
  | .enter => { s with asking := none }.answer q.question (some (cstr q.input))
  | .backspace => some ({ s with asking := some { q with input := q.input.dropLast } }, none)
  | .char c =>
    let input := if q.input.length < q.question.size - 1 then q.input ++ [c] else q.input
    some ({ s with asking := some { q with input := input } }, none)

end State

/-! ## 4. Events -/

/-- The signals of `sighandler`: a new size, or a change in the directory of a pane. -/
inductive Signal
  | sigwinch (row : Nat)
  | sigusr (side : Side) (scan : Scan)

def State.sighandler (s : State) : Signal → Option State
  | .sigwinch row => some { s with rows := getTermSize row }
  | .sigusr side scan => ((s.panes side).setPaneEntries s.showDotfiles scan).map (s.setPane side)

inductive Event
  | key (k : Command)
  | typed (k : PromptKey)
  | signal (g : Signal)

/-- The state behind an event and the `chmod` that it spawns. -/
def step (s : State) : Event → Option (State × Option Chmod)
  | .key k => if s.asking = none then (s.command k).map (·, none) else none
  | .typed k => s.asking.bind fun q => s.getUserInput q k
  | .signal g => (s.sighandler g).map (·, none)

end Sfm
