import ZteWifi.Sfm.Main

/-!
# The entry under the cursor

`set_pane_entries` leaves the cursor where it is, so the listing can end above it, and the matches
that `move_to_match` goes through may be those of an earlier listing.  `chmod_entry` asks neither.
In a run where neither happens the entry under the cursor is the one whose mode is changed.
-/

open Ascii

namespace Sfm

/-! ## 1. Panes -/

namespace Pane

/-- The cursor stands on an entry, if there is one. -/
def Within (p : Pane) : Prop :=
  p.entryCount = 0 ∨ 0 ≤ p.currentIndex ∧ p.currentIndex < p.entryCount

/-- The listing is loaded and the cursor in it. -/
structure Aimed (p : Pane) : Prop where
  loaded : p.entryCount ≤ p.block.length
  within : p.Within

/-- The listing is as large as before. -/
structure SameSize (p q : Pane) : Prop where
  count : q.entryCount = p.entryCount
  block : q.block.length = p.block.length

theorem Aimed.of_within {p q : Pane} (h : p.Aimed) (hsize : SameSize p q) (hwithin : q.Within) :
    q.Aimed := by
  refine ⟨?_, hwithin⟩
  rw [hsize.count, hsize.block]
  exact h.loaded

theorem Aimed.of_index {p q : Pane} (h : p.Aimed) (hsize : SameSize p q)
    (hindex : q.currentIndex = p.currentIndex) : q.Aimed := by
  refine h.of_within hsize ?_
  rw [Within, hsize.count, hindex]
  exact h.within

theorem Aimed.moveCursor {p : Pane} (h : p.Aimed) (rows i : Int) (hcount : p.entryCount ≠ 0) :
    (p.moveCursor rows i).Aimed := by
  refine h.of_within ⟨rfl, rfl⟩ (.inr ?_)
  simp only [Pane.moveCursor]
  split_ifs <;> omega

theorem Aimed.moveBottom {p : Pane} (h : p.Aimed) (rows : Int) : (p.moveBottom rows).Aimed := by
  refine h.of_within ⟨rfl, rfl⟩ ?_
  simp only [Within, Pane.moveBottom]
  omega

theorem Aimed.moveTop {p : Pane} (h : p.entryCount ≤ p.block.length) : p.moveTop.Aimed := by
  refine ⟨h, ?_⟩
  simp only [Within, Pane.moveTop]
  omega

/-- New entries in the block, one for one. -/
theorem Aimed.map_block {p : Pane} (h : p.Aimed) {f : List Entry → List Entry}
    (hf : (f p.block).length = p.block.length) : { p with entries := p.entries.map f }.Aimed := by
  refine h.of_index ⟨rfl, ?_⟩ rfl
  cases hentries : p.entries with
  | none => simp only [block, hentries, Option.map_none]
  | some es =>
    simp only [block, hentries, Option.map_some, Option.getD_some] at hf ⊢
    exact hf

theorem Aimed.selectCurEntry {p q : Pane} {sel : Selection} (h : p.Aimed)
    (hq : p.selectCurEntry sel = some q) : q.Aimed := by
  obtain ⟨e, -, rfl⟩ := Option.map_eq_some_iff.mp hq
  exact h.map_block (List.length_modify _ _ _)

theorem Aimed.selectAll {p q : Pane} {sel : Selection} (h : p.Aimed)
    (hq : p.selectAll sel = some q) : q.Aimed := by
  obtain ⟨es, hes, rfl⟩ := Option.map_eq_some_iff.mp hq
  rw [Pane.listed, if_pos h.loaded] at hes
  obtain rfl := Option.some.inj hes
  apply h.map_block
  rw [List.length_append, List.length_map, ← List.length_append, List.take_append_drop]

theorem Aimed.cancelSearchHighlight {p q : Pane} (h : p.Aimed)
    (hq : p.cancelSearchHighlight = some q) : q.Aimed := by
  rw [Pane.cancelSearchHighlight] at hq
  split_ifs at hq
  · exact Option.some.inj hq ▸ h
  · obtain ⟨es, -, rfl⟩ := Option.map_eq_some_iff.mp hq
    exact h.of_index ⟨rfl, rfl⟩ rfl

theorem Aimed.updateSearchHighlight {p q : Pane} {term : List UInt8} (h : p.Aimed)
    (hq : p.updateSearchHighlight term = some q) : q.Aimed := by
  obtain ⟨es, -, hq⟩ := Option.bind_eq_some_iff.mp hq
  dsimp only at hq
  -- only the matches change, wherever the count starts
  generalize (if p.matchedIndices = none then p.matchedCount else 0) = base at hq
  split_ifs at hq
  obtain rfl := Option.some.inj hq
  exact h.of_index ⟨rfl, rfl⟩ rfl

end Pane

/-! ## 2. Refreshing a pane -/

/-- The entries that a scan lists: no more than the first pass has counted. -/
def Scan.count (showDotfiles : Bool) : Scan → Option Nat
  | .unreadable => none
  | .passes counted read =>
    some (min (counted.filter fun name => !shouldSkipEntry showDotfiles name).length
      (read.filter fun d => !shouldSkipEntry showDotfiles d.name).length)

namespace Pane

/-- What is listed reaches to the cursor, or nothing is.  A directory that does not open is only
harmless where nothing was listed. -/
def Keeps (p : Pane) (showDotfiles : Bool) (scan : Scan) : Prop :=
  match scan.count showDotfiles with
  | none => p.entryCount = 0
  | some n => n = 0 ∨ 0 ≤ p.currentIndex ∧ p.currentIndex < n

end Pane

end Sfm
