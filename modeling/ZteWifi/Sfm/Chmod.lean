import ZteWifi.Sfm.Cursor

/-!
# The target of `chmod`

`delete_entry` and `display_entry_details` compare `current_index` with `entry_count`;
`chmod_entry` only asks that there are entries, and only before it waits for the mode.  So it is
right as long as each step that lists anew, or goes to a match, keeps the cursors on entries.  No
pane may be scrolled when it is listed anew, or colours are written behind its block.
-/

open Ascii

namespace Sfm

/-! ## 1. Steps that keep the cursors on entries -/

/-- `chmod_entry` waits for the mode. -/
def State.AsksChmod (s : State) : Prop := ∃ input, s.asking = some ⟨.chmod, input⟩

/-- Both cursors stand on entries, and `chmod_entry` waits only where there is one. -/
structure State.Aimed (s : State) : Prop where
  panes : ∀ side, (s.panes side).Aimed
  asked : s.AsksChmod → s.current.entryCount ≠ 0

namespace State

variable {s t : State}

theorem Aimed.of_panes (hs : s.Aimed) (ht : t.panes = s.panes) (hask : ¬ t.AsksChmod) : t.Aimed :=
  ⟨ht ▸ hs.panes, fun h => absurd h hask⟩

theorem Aimed.update_panes_iff (hs : s.Aimed) {side : Side} {p : Pane} :
    (∀ other, (Function.update s.panes side p other).Aimed) ↔ p.Aimed := by
  refine (Function.forall_update_iff s.panes fun _ q => q.Aimed).trans ?_
  exact and_iff_left fun other _ => hs.panes other

/-- A step that changes one pane. -/
theorem Aimed.update_iff (hs : s.Aimed) {side : Side} {p : Pane}
    (ht : t.panes = Function.update s.panes side p) (hask : ¬ t.AsksChmod) :
    t.Aimed ↔ p.Aimed := by
  have hpanes : (∀ other, (t.panes other).Aimed) ↔ p.Aimed := by
    rw [ht]
    exact hs.update_panes_iff
  exact ⟨fun h => hpanes.mp h.panes, fun h => ⟨hpanes.mpr h, fun hq => absurd hq hask⟩⟩

theorem Aimed.update (hs : s.Aimed) {side : Side} {p : Pane}
    (ht : t.panes = Function.update s.panes side p) (hask : ¬ t.AsksChmod) (hp : p.Aimed) :
    t.Aimed :=
  (hs.update_iff ht hask).mpr hp

theorem not_asksChmod (h : s.asking = none) : ¬ s.AsksChmod := by
  rintro ⟨input, hinput⟩
  rw [h] at hinput
  cases hinput

/-! ### The commands -/

section
variable (hs : s.Aimed) (hask : s.asking = none)
include hs hask

theorem Aimed.moveCursor {i : Int} (h : s.moveCursor i = some t) : t.Aimed := by
  rw [State.moveCursor] at h
  split_ifs at h with hcount hmode
  · exact Option.some.inj h ▸ hs
  · obtain ⟨p, hp, rfl⟩ := Option.map_eq_some_iff.mp h
    refine hs.update rfl (not_asksChmod hask) ?_
    exact ((hs.panes s.paneIdx).moveCursor s.rows i hcount).selectCurEntry hp
  · obtain rfl := Option.some.inj h
    refine hs.update rfl (not_asksChmod hask) ?_
    exact (hs.panes s.paneIdx).moveCursor s.rows i hcount

theorem Aimed.normalMode (h : s.normalMode = some t) : t.Aimed := by
  obtain ⟨p, hp, rfl⟩ := Option.map_eq_some_iff.mp h
  refine hs.update rfl (not_asksChmod hask) ?_
  split_ifs at hp
  · exact (hs.panes s.paneIdx).cancelSearchHighlight hp
  · exact Option.some.inj hp ▸ hs.panes s.paneIdx

theorem Aimed.visualMode (h : s.visualMode = some t) : t.Aimed := by
  rw [State.visualMode] at h
  split_ifs at h
  · exact Option.some.inj h ▸ hs
  · exact hs.normalMode hask h
  · obtain ⟨p, hp, rfl⟩ := Option.map_eq_some_iff.mp h
    exact hs.update rfl (not_asksChmod hask) ((hs.panes s.paneIdx).selectCurEntry hp)

theorem Aimed.selectAll {sel : Selection} (h : s.selectAll sel = some t) : t.Aimed := by
  rw [State.selectAll] at h
  split_ifs at h
  · exact Option.some.inj h ▸ hs
  · obtain ⟨p, hp, rfl⟩ := Option.map_eq_some_iff.mp h
    exact hs.update rfl (not_asksChmod hask) ((hs.panes s.paneIdx).selectAll hp)

theorem Aimed.copyEntries (h : s.copyEntries = some t) : t.Aimed := by
  obtain ⟨u, hu, rfl⟩ := Option.map_eq_some_iff.mp h
  obtain ⟨n, -, rfl⟩ := Option.map_eq_some_iff.mp hu
  exact hs.of_panes rfl (not_asksChmod hask)

omit hask in
/-- A question that is not the one of `chmod_entry`. -/
theorem Aimed.ask {q : Question} (ht : t.panes = s.panes) (hq : t.asking = some ⟨q, []⟩)
    (hne : q ≠ .chmod) : t.Aimed := by
  refine hs.of_panes ht ?_
  rintro ⟨input, hinput⟩
  rw [hq] at hinput
  cases hinput
  exact hne rfl

omit hask in
theorem Aimed.deleteEntry (h : s.deleteEntry = some t) : t.Aimed := by
  rw [State.deleteEntry] at h
  split_ifs at h
  · exact Option.some.inj h ▸ hs
  · obtain ⟨u, hu, rfl⟩ := Option.map_eq_some_iff.mp h
    obtain ⟨n, -, rfl⟩ := Option.map_eq_some_iff.mp hu
    exact hs.ask rfl rfl (by decide)

theorem Aimed.startSearch (h : s.startSearch = some t) : t.Aimed := by
  rw [State.startSearch] at h
  split_ifs at h
  · exact hs.normalMode hask h
  · obtain rfl := Option.some.inj h
    exact hs.ask rfl rfl (by decide)

omit hask in
theorem Aimed.chmodEntry : s.chmodEntry.Aimed := by
  rw [State.chmodEntry]
  split_ifs with hcount
  · exact hs
  · exact ⟨hs.panes, fun _ hzero => hcount (Nat.lt_one_iff.mpr hzero)⟩

end

/-! ### The answers -/

/-- The answer is taken when nothing is asked any more. -/
theorem Aimed.answer {q : Question} {input : Option (List UInt8)} {c : Option Chmod}
    (hs : s.Aimed) (hask : s.asking = none) (h : s.answer q input = some (t, c)) : t.Aimed := by
  have hcurrent := hs.panes s.paneIdx
  have hquiet := not_asksChmod hask
  have hsame : ∀ {c'}, some (s, c') = some (t, c) → t.Aimed := by
    rintro c' ⟨⟩
    exact hs
  cases q <;> cases input
  -- the answers that change nothing, or only what is copied and the mode
  case chmod.none | chmod.some | newFile.none | newDir.none => exact hsame h
  case newFile.some name | newDir.some name =>
    obtain ⟨u, hu, heq⟩ := Option.map_eq_some_iff.mp h
    obtain ⟨full, -, rfl⟩ := Option.map_eq_some_iff.mp hu
    exact hsame (congrArg some heq)
  case delete.none =>
    cases h
    exact hs.of_panes rfl hquiet
  case delete.some confirmation =>
    cases h
    rw [confirmDelete]
    split_ifs
    · exact hs.of_panes rfl hquiet
    · exact hs.of_panes rfl hquiet
  -- a search changes the matches of the current pane
  case search.none =>
    obtain ⟨u, hu, heq⟩ := Option.map_eq_some_iff.mp h
    obtain ⟨p, hp, rfl⟩ := Option.map_eq_some_iff.mp hu
    cases heq
    exact hs.update rfl hquiet (hcurrent.cancelSearchHighlight hp)
  case search.some term =>
    obtain ⟨u, hu, heq⟩ := Option.map_eq_some_iff.mp h
    obtain ⟨p, hp, rfl⟩ := Option.map_eq_some_iff.mp hu
    cases heq
    refine hs.update rfl hquiet ?_
    exact (hcurrent.updateSearchHighlight hp).of_index ⟨rfl, rfl⟩ rfl

theorem Aimed.getUserInput {q : Prompt} {k : PromptKey} {c : Option Chmod} (hs : s.Aimed)
    (hq : s.asking = some q) (h : s.getUserInput q k = some (t, c)) : t.Aimed := by
  obtain ⟨question, typed⟩ := q
  have hdone : { s with asking := none }.Aimed := hs.of_panes rfl (not_asksChmod rfl)
  -- the question stays the same while its answer is typed
  have hedit (input : List UInt8) : { s with asking := some ⟨question, input⟩ }.Aimed := by
    refine ⟨hs.panes, ?_⟩
    rintro ⟨input', hinput⟩
    cases hinput
    exact hs.asked ⟨typed, hq⟩
  cases k with
  | esc => exact hdone.answer rfl h
  | enter => exact hdone.answer rfl h
  | backspace =>
    cases h
    exact hedit _
  | char x =>
    cases h
    exact hedit _

/-! ### The signals -/

end State

def Step (s : State) (e : Event) (t : State) : Prop := ∃ c, step s e = some (t, c)

end Sfm
