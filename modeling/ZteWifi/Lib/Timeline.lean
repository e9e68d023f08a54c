import Mathlib.Data.List.Nodup
import Mathlib.Logic.Equiv.PartialEquiv

/-!
# Undo and redo

What an undo history is for: a `Timeline`, the document with those it can go back and forward to.
What a program keeps instead: a `Journal` of single changes, stamped with the number of the change
set they belong to, of which undo and redo take a whole set at once.  A sound journal behaves as its
timeline.
-/

variable {α : Type}

/-! ## 1. Timelines -/

/-- A document, the documents to go back to (latest first) and those to go forward to (next first),
each with the number of the change set that lies between. -/
structure Timeline (α : Type) where
  past : List (ℕ × α)
  now : α
  future : List (ℕ × α)

namespace Timeline

/-- A change of set `q` from the document `d` opens the set, or joins it where it is open. -/
def join (q : ℕ) (d : α) : List (ℕ × α) → List (ℕ × α)
  | [] => [(q, d)]
  | (q', d') :: older => if q' = q then (q', d') :: older else (q, d) :: (q', d') :: older

/-- A change to the document `d`; nothing can be redone behind it. -/
def edit (q : ℕ) (d : α) (t : Timeline α) : Timeline α := ⟨join q t.now t.past, d, []⟩

def undo (t : Timeline α) : Timeline α :=
  match t.past with
  | [] => t
  | (q, d) :: older => ⟨older, d, (q, t.now) :: t.future⟩

def flip (t : Timeline α) : Timeline α := ⟨t.future, t.now, t.past⟩

/-- Going forward is going back in the timeline read the other way. -/
def redo (t : Timeline α) : Timeline α := t.flip.undo.flip

/-- The document alone. -/
def forget (t : Timeline α) : Timeline α := ⟨[], t.now, []⟩

theorem join_head (q : ℕ) (d : α) (l : List (ℕ × α)) : (join q d l).head?.map (·.1) = some q := by
  cases l with
  | nil => rfl
  | cons c older =>
    by_cases h : c.1 = q
    · rw [join, if_pos h]
      exact congrArg some h
    · rw [join, if_neg h]
      rfl

theorem join_of_head {q : ℕ} {l : List (ℕ × α)} (h : l.head?.map (·.1) = some q) (d : α) :
    join q d l = l := by
  cases l with
  | nil => exact absurd h nofun
  | cons c older => exact if_pos (Option.some.inj h)

theorem join_of_ne {q : ℕ} {l : List (ℕ × α)} (h : l.head?.map (·.1) ≠ some q) (d : α) :
    join q d l = (q, d) :: l := by
  cases l with
  | nil => rfl
  | cons c older => exact if_neg fun heq => h (congrArg some heq)

end Timeline

/-! ## 2. Stamped changes one behind the other -/

/-- A change, with the number of the set it belongs to. -/
abbrev Change (α : Type) := ℕ × PartialEquiv α α

namespace Change

def symm (c : Change α) : Change α := (c.1, c.2.symm)

@[simp] theorem symm_symm (c : Change α) : c.symm.symm = c := rfl

/-- The document behind all the changes. -/
def walk (d : α) : List (Change α) → α
  | [] => d
  | c :: cs => walk (c.2 d) cs

/-- Each change can be made where it stands. -/
def Applies (d : α) : List (Change α) → Prop
  | [] => True
  | c :: cs => d ∈ c.2.source ∧ Applies (c.2 d) cs

/-- The documents at the ends of the change sets. -/
def stops (d : α) : List (Change α) → List (ℕ × α)
  | [] => []
  | c :: cs => Timeline.join c.1 (c.2 d) (stops (c.2 d) cs)

theorem walk_append (d : α) (cs cs' : List (Change α)) :
    walk d (cs ++ cs') = walk (walk d cs) cs' := by
  induction cs generalizing d with
  | nil => rfl
  | cons c cs ih => exact ih (c.2 d)

theorem applies_append {d : α} {cs cs' : List (Change α)} :
    Applies d (cs ++ cs') ↔ Applies d cs ∧ Applies (walk d cs) cs' := by
  induction cs generalizing d with
  | nil => exact (iff_of_eq (true_and _)).symm
  | cons c cs ih =>
    show d ∈ c.2.source ∧ Applies (c.2 d) (cs ++ cs') ↔
      (d ∈ c.2.source ∧ Applies (c.2 d) cs) ∧ Applies (walk (c.2 d) cs) cs'
    rw [ih, and_assoc]

/-- Changes that can be made can be taken back, the last first. -/
theorem Applies.back {d : α} {cs : List (Change α)} (h : Applies d cs) :
    Applies (walk d cs) (cs.reverse.map symm) ∧ walk (walk d cs) (cs.reverse.map symm) = d := by
  induction cs generalizing d with
  | nil => exact ⟨trivial, rfl⟩
  | cons c cs ih =>
    obtain ⟨hc, hcs⟩ := h
    obtain ⟨happlies, hwalk⟩ := ih hcs
    have hrev : (c :: cs).reverse.map symm = cs.reverse.map symm ++ [c.symm] := by
      rw [List.reverse_cons, List.map_append]
      rfl
    show Applies (walk (c.2 d) cs) _ ∧ walk (walk (c.2 d) cs) _ = d
    rw [hrev, applies_append, walk_append, hwalk]
    exact ⟨⟨happlies, c.2.map_source hc, trivial⟩, c.2.left_inv hc⟩

theorem stops_head (d : α) (cs : List (Change α)) :
    (stops d cs).head?.map (·.1) = cs.head?.map (·.1) := by
  cases cs with
  | nil => rfl
  | cons c cs => exact Timeline.join_head _ _ _

theorem stops_eq_nil {d : α} {cs : List (Change α)} : stops d cs = [] ↔ cs = [] := by
  have hhead := stops_head d cs
  constructor
  · intro h
    rw [h] at hhead
    cases cs with
    | nil => rfl
    | cons c cs => exact absurd hhead nofun
  · rintro rfl
    rfl

/-- A whole change set is one stop. -/
theorem stops_group {q : ℕ} {g cs : List (Change α)} (hg : g ≠ []) (hq : ∀ c ∈ g, c.1 = q)
    (hcs : cs.head?.map (·.1) ≠ some q) (d : α) :
    stops d (g ++ cs) = (q, walk d g) :: stops (walk d g) cs := by
  induction g generalizing d with
  | nil => exact absurd rfl hg
  | cons c g ih =>
    have hc := hq c List.mem_cons_self
    show Timeline.join c.1 (c.2 d) (stops (c.2 d) (g ++ cs)) = _
    rw [hc]
    by_cases hnil : g = []
    · subst hnil
      rw [List.nil_append]
      exact Timeline.join_of_ne (by rwa [stops_head]) _
    · rw [ih hnil (fun c' hmem => hq c' (List.mem_cons_of_mem _ hmem))]
      exact Timeline.join_of_head rfl _

end Change

/-! ## 3. Journals -/

open Change

/-- The changes made, the latest first, the document, and the changes taken back, the next first. -/
structure Journal (α : Type) where
  done : List (Change α)
  now : α
  todo : List (Change α)

namespace Journal

/-- Every change can be taken back, or made again, where it stands, and no set lies on both sides of
the document. -/
structure Sound (j : Journal α) : Prop where
  back : Applies j.now (j.done.map symm)
  ahead : Applies j.now j.todo
  apart : ∀ q, j.done.head?.map (·.1) = some q → j.todo.head?.map (·.1) ≠ some q

def timeline (j : Journal α) : Timeline α :=
  ⟨stops j.now (j.done.map symm), j.now, stops j.now j.todo⟩

def flip (j : Journal α) : Journal α := ⟨j.todo.map symm, j.now, j.done.map symm⟩

/-- The changes of set `q` at the head of `done` are taken back, one by one. -/
def rewind (q : ℕ) : List (Change α) → α → List (Change α) → Journal α
  | [], d, todo => ⟨[], d, todo⟩
  | c :: done, d, todo =>
    if c.1 = q then rewind q done (c.2.symm d) (c :: todo) else ⟨c :: done, d, todo⟩

def undo (j : Journal α) : Journal α :=
  match j.done with
  | [] => j
  | c :: _ => rewind c.1 j.done j.now j.todo

def redo (j : Journal α) : Journal α := j.flip.undo.flip

/-- A new change, behind which nothing can be redone. -/
def record (c : Change α) (j : Journal α) : Journal α := ⟨c :: j.done, c.2 j.now, []⟩

theorem map_symm_symm (cs : List (Change α)) : (cs.map symm).map symm = cs := by
  rw [List.map_map]
  exact List.map_id cs

theorem flip_flip (j : Journal α) : j.flip.flip = j := by
  obtain ⟨done, now, todo⟩ := j
  rw [flip, flip, map_symm_symm, map_symm_symm]

theorem flip_timeline (j : Journal α) : j.flip.timeline = j.timeline.flip := by
  rw [timeline, flip, map_symm_symm]
  rfl

theorem head_map_symm (cs : List (Change α)) :
    (cs.map symm).head?.map (·.1) = cs.head?.map (·.1) := by
  cases cs <;> rfl

theorem Sound.flip {j : Journal α} (h : j.Sound) : j.flip.Sound := by
  refine ⟨?_, h.back, ?_⟩
  · show Applies j.now ((j.todo.map symm).map symm)
    rw [map_symm_symm]
    exact h.ahead
  · intro q hdone htodo
    rw [Journal.flip, head_map_symm] at hdone htodo
    exact h.apart q htodo hdone

/-- What is taken back is the whole set, and it is what can be redone next. -/
theorem rewind_eq (q : ℕ) (done : List (Change α)) (d : α) (todo : List (Change α)) :
    ∃ g rest, done = g ++ rest ∧ (∀ c ∈ g, c.1 = q) ∧ rest.head?.map (·.1) ≠ some q ∧
      rewind q done d todo = ⟨rest, walk d (g.map symm), g.reverse ++ todo⟩ := by
  induction done generalizing d todo with
  | nil => exact ⟨[], [], rfl, nofun, nofun, rfl⟩
  | cons c done ih =>
    by_cases hc : c.1 = q
    · obtain ⟨g, rest, hdone, hg, hrest, heq⟩ := ih (c.2.symm d) (c :: todo)
      refine ⟨c :: g, rest, by rw [hdone, List.cons_append], ?_, hrest, ?_⟩
      · intro c' hmem
        rcases List.mem_cons.mp hmem with rfl | hmem
        · exact hc
        · exact hg c' hmem
      · rw [rewind, if_pos hc, heq, List.reverse_cons, List.append_assoc]
        rfl
    · refine ⟨[], c :: done, rfl, nofun, ?_, ?_⟩
      · exact fun h => hc (Option.some.inj h)
      · rw [rewind, if_neg hc]
        rfl

/-- The parts of an undo: the set that is taken back, and what lies before it. -/
theorem undo_eq {j : Journal α} (hne : j.done ≠ []) :
    ∃ q g rest, j.done = g ++ rest ∧ g ≠ [] ∧ (∀ c ∈ g, c.1 = q) ∧
      rest.head?.map (·.1) ≠ some q ∧
      j.undo = ⟨rest, walk j.now (g.map symm), g.reverse ++ j.todo⟩ := by
  obtain ⟨done, now, todo⟩ := j
  cases done with
  | nil => exact absurd rfl hne
  | cons c done =>
    obtain ⟨g, rest, hdone, hg, hrest, heq⟩ := rewind_eq c.1 (c :: done) now todo
    refine ⟨c.1, g, rest, hdone, ?_, hg, hrest, heq⟩
    rintro rfl
    rw [List.nil_append] at hdone
    rw [← hdone] at hrest
    exact hrest rfl

theorem undo_nil {j : Journal α} (h : j.done = []) : j.undo = j := by
  rw [undo, h]

section
variable {j : Journal α}

theorem Sound.undo (h : j.Sound) : j.undo.Sound := by
  by_cases hne : j.done = []
  · rwa [undo_nil hne]
  obtain ⟨q, g, rest, hdone, hnil, hg, hrest, heq⟩ := undo_eq hne
  have hback := h.back
  rw [hdone, List.map_append, applies_append] at hback
  have hagain := hback.1.back
  rw [List.map_reverse, map_symm_symm] at hagain
  rw [heq]
  refine ⟨hback.2, ?_, ?_⟩
  · rw [applies_append, hagain.2]
    exact ⟨hagain.1, h.ahead⟩
  · -- the set that was taken back stands first among those to come
    intro q' hq' htodo
    obtain ⟨c, hc⟩ := Option.isSome_iff_exists.mp
      (List.isSome_head?.mpr (List.reverse_ne_nil_iff.mpr hnil))
    have hmem : c ∈ g := List.mem_reverse.mp (List.mem_of_mem_head? hc)
    rw [List.head?_append, hc] at htodo
    have hcq : c.1 = q' := Option.some.inj htodo
    rw [← hcq, hg c hmem] at hq'
    exact hrest hq'

/-- Undo of a sound journal goes back one step of its timeline. -/
theorem Sound.undo_timeline (h : j.Sound) : j.undo.timeline = j.timeline.undo := by
  by_cases hne : j.done = []
  · rw [undo_nil hne, Timeline.undo, timeline, hne]
    rfl
  obtain ⟨q, g, rest, hdone, hnil, hg, hrest, heq⟩ := undo_eq hne
  have hback := h.back
  rw [hdone, List.map_append, applies_append] at hback
  have hagain := hback.1.back
  rw [List.map_reverse, map_symm_symm] at hagain
  have hfuture : j.todo.head?.map (·.1) ≠ some q := by
    obtain ⟨c, g', rfl⟩ := List.exists_cons_of_ne_nil hnil
    apply h.apart q
    rw [hdone]
    exact congrArg some (hg c List.mem_cons_self)
  have hpast : stops j.now (j.done.map symm) =
      (q, walk j.now (g.map symm)) :: stops (walk j.now (g.map symm)) (rest.map symm) := by
    rw [hdone, List.map_append]
    apply stops_group
    · exact fun hmap => hnil (List.map_eq_nil_iff.mp hmap)
    · intro c hmem
      obtain ⟨c', hmem', rfl⟩ := List.mem_map.mp hmem
      exact hg c' hmem'
    · rwa [head_map_symm]
  have hnext : stops (walk j.now (g.map symm)) (g.reverse ++ j.todo) =
      (q, j.now) :: stops j.now j.todo := by
    rw [stops_group (List.reverse_ne_nil_iff.mpr hnil)
      (fun c hmem => hg c (List.mem_reverse.mp hmem)) hfuture, hagain.2]
  rw [heq, timeline, hnext, Timeline.undo, timeline, hpast]

theorem Sound.redo (h : j.Sound) : j.redo.Sound := h.flip.undo.flip

theorem Sound.redo_timeline (h : j.Sound) : j.redo.timeline = j.timeline.redo := by
  rw [Journal.redo, flip_timeline, h.flip.undo_timeline, flip_timeline]
  rfl

theorem Sound.record (h : j.Sound) {c : Change α} (hc : j.now ∈ c.2.source) :
    (j.record c).Sound := by
  refine ⟨⟨c.2.map_source hc, ?_⟩, trivial, nofun⟩
  show Applies (c.2.symm (c.2 j.now)) _
  rw [c.2.left_inv hc]
  exact h.back

theorem record_timeline {c : Change α} (hc : j.now ∈ c.2.source) :
    (j.record c).timeline = j.timeline.edit c.1 (c.2 j.now) := by
  show Timeline.mk (Timeline.join c.1 (c.2.symm (c.2 j.now))
    (stops (c.2.symm (c.2 j.now)) (j.done.map symm))) (c.2 j.now) [] = _
  rw [c.2.left_inv hc]
  rfl

/-- A change of the latest set that starts where its last change does can take its place. -/
theorem Sound.amend (h : j.Sound) {c c' : Change α} {done : List (Change α)} {d : α}
    (hdone : j.done = c :: done) (hd : d ∈ c'.2.target) (hstart : c'.2.symm d = c.2.symm j.now) :
    (Journal.mk (c' :: done) d []).Sound := by
  have hback := h.back
  rw [hdone] at hback
  refine ⟨⟨hd, ?_⟩, trivial, nofun⟩
  show Applies (c'.2.symm d) _
  rw [hstart]
  exact hback.2

theorem amend_timeline {c c' : Change α} {done : List (Change α)} {d : α}
    (hdone : j.done = c :: done) (hq : c'.1 = c.1) (hstart : c'.2.symm d = c.2.symm j.now) :
    (Journal.mk (c' :: done) d []).timeline = j.timeline.edit c.1 d := by
  have hpast : (stops j.now (j.done.map symm)).head?.map (·.1) = some c.1 := by
    rw [stops_head, head_map_symm, hdone]
    rfl
  rw [Timeline.edit, timeline, timeline, Timeline.join_of_head hpast, hdone]
  show Timeline.mk (Timeline.join c'.1 (c'.2.symm d) (stops (c'.2.symm d) _)) d _ = _
  rw [hq, hstart]
  rfl

end

end Journal

/-! ## 4. Versions -/

namespace Timeline

variable {q base mark : ℕ} {d saved : α} {t : Timeline α}

/-- The documents of the timeline, the latest first. -/
def docs (t : Timeline α) : List α := (t.future.map (·.2)).reverse ++ t.now :: t.past.map (·.2)

/-- The numbers of the change sets that led to them; `base` is that of the oldest. -/
def stamps (base : ℕ) (t : Timeline α) : List ℕ :=
  (t.future.map (·.1)).reverse ++ (t.past.map (·.1) ++ [base])

/-- The number of the change set that led to the document. -/
def stamp (base : ℕ) (t : Timeline α) : ℕ := (t.past.head?.map (·.1)).getD base

def versions (base : ℕ) (t : Timeline α) : List (ℕ × α) := (t.stamps base).zip t.docs

/-- Undo and redo move along the documents, which stay as they are. -/
theorem undo_docs (base : ℕ) (t : Timeline α) :
    t.undo.docs = t.docs ∧ t.undo.stamps base = t.stamps base := by
  obtain ⟨past, now, future⟩ := t
  cases past with
  | nil => exact ⟨rfl, rfl⟩
  | cons c older =>
    constructor
    · show (now :: future.map (·.2)).reverse ++ c.2 :: older.map (·.2) = _
      rw [List.reverse_cons, List.append_assoc]
      rfl
    · show (c.1 :: future.map (·.1)).reverse ++ (older.map (·.1) ++ [base]) = _
      rw [List.reverse_cons, List.append_assoc]
      rfl

theorem redo_docs (base : ℕ) (t : Timeline α) :
    t.redo.docs = t.docs ∧ t.redo.stamps base = t.stamps base := by
  obtain ⟨past, now, future⟩ := t
  cases future with
  | nil => exact ⟨rfl, rfl⟩
  | cons c later =>
    constructor
    · show _ = (c.2 :: later.map (·.2)).reverse ++ now :: past.map (·.2)
      rw [List.reverse_cons, List.append_assoc]
      rfl
    · show _ = (c.1 :: later.map (·.1)).reverse ++ (past.map (·.1) ++ [base])
      rw [List.reverse_cons, List.append_assoc]
      rfl

/-- What is known of the timeline of a document that was saved with the number `mark`, in change set
`q`: the numbers fall from the latest document to the oldest, and the document numbered `mark` is
the one that was saved. -/
structure Marked (q base mark : ℕ) (saved : α) (t : Timeline α) : Prop where
  falling : (t.stamps base).Pairwise (· > ·)
  le : ∀ n ∈ t.stamps base, n ≤ q
  fresh : q = base → mark = base
  same : ∀ v ∈ t.versions base, v.1 = mark → v.2 = saved

theorem past_suffix (base : ℕ) (t : Timeline α) : t.past.map (·.1) ++ [base] <:+ t.stamps base :=
  List.suffix_append _ _

theorem now_mem_versions (base : ℕ) (t : Timeline α) : (t.stamp base, t.now) ∈ t.versions base := by
  obtain ⟨past, now, future⟩ := t
  have hlen : (future.map (·.1)).reverse.length = (future.map (·.2)).reverse.length := by
    rw [List.length_reverse, List.length_reverse, List.length_map, List.length_map]
  rw [versions, stamps, docs, List.zip_append hlen]
  apply List.mem_append_right
  cases past with
  | nil => exact List.mem_cons_self
  | cons c older => exact List.mem_cons_self

/-- The document is the saved one where its number says so. -/
theorem Marked.now (h : t.Marked q base mark saved) (hstamp : t.stamp base = mark) :
    t.now = saved :=
  h.same _ (now_mem_versions base t) hstamp

theorem Marked.undo (h : t.Marked q base mark saved) : t.undo.Marked q base mark saved := by
  obtain ⟨hdocs, hstamps⟩ := undo_docs base t
  refine ⟨hstamps ▸ h.falling, hstamps ▸ h.le, h.fresh, ?_⟩
  rw [versions, hdocs, hstamps]
  exact h.same

theorem Marked.redo (h : t.Marked q base mark saved) : t.redo.Marked q base mark saved := by
  obtain ⟨hdocs, hstamps⟩ := redo_docs base t
  refine ⟨hstamps ▸ h.falling, hstamps ▸ h.le, h.fresh, ?_⟩
  rw [versions, hdocs, hstamps]
  exact h.same

theorem Marked.next (h : t.Marked q base mark saved) : t.Marked (q + 1) base mark saved := by
  refine ⟨h.falling, fun n hn => Nat.le_succ_of_le (h.le n hn), ?_, h.same⟩
  intro heq
  have hbase := h.le base ((past_suffix base t).subset (List.mem_append_right _ (.head _)))
  omega

/-- A change of any set but the one numbered `mark`. -/
theorem Marked.edit (h : t.Marked q base mark saved) (hq : q ≠ mark) (d : α) :
    (t.edit q d).Marked q base mark saved := by
  have hfall := h.falling.sublist (past_suffix base t).sublist
  have hle := fun n hn => h.le n ((past_suffix base t).subset hn)
  have hbase : q ≠ base := fun heq => hq (heq.trans (h.fresh heq).symm)
  obtain ⟨past, now, future⟩ := t
  have hlen : (future.map (·.1)).reverse.length = (future.map (·.2)).reverse.length := by
    rw [List.length_reverse, List.length_reverse, List.length_map, List.length_map]
  have hsame : ∀ v ∈ (past.map (·.1) ++ [base]).zip (now :: past.map (·.2)), v.1 = mark →
      v.2 = saved := by
    intro v hv
    apply h.same v
    rw [versions, stamps, docs, List.zip_append hlen]
    exact List.mem_append_right _ hv
  by_cases hhead : past.head?.map (·.1) = some q
  · -- the change joins the set of the last one
    obtain ⟨c, older, rfl⟩ : ∃ c older, past = c :: older := by
      cases past with
      | nil => exact absurd hhead nofun
      | cons c older => exact ⟨c, older, rfl⟩
    have hc : c.1 = q := Option.some.inj hhead
    have hedit : Timeline.edit q d ⟨c :: older, now, future⟩ = ⟨c :: older, d, []⟩ := by
      rw [Timeline.edit, join_of_head hhead]
    rw [hedit]
    refine ⟨hfall, hle, h.fresh, ?_⟩
    intro v hv hmark
    rcases List.mem_cons.mp hv with rfl | hv
    · exact absurd (hc.symm.trans hmark) hq
    · exact hsame v (List.mem_cons_of_mem _ hv) hmark
  · have hedit : Timeline.edit q d ⟨past, now, future⟩ = ⟨(q, now) :: past, d, []⟩ := by
      rw [Timeline.edit, join_of_ne hhead]
    rw [hedit]
    refine ⟨List.pairwise_cons.mpr ⟨?_, hfall⟩, ?_, h.fresh, ?_⟩
    · -- the numbers so far are at most `q`, and the greatest of them is not `q`
      intro n hn
      show q > n
      have hn' : n ≤ q := hle n hn
      cases past with
      | nil =>
        rw [List.mem_singleton.mp hn] at hn' ⊢
        omega
      | cons c older =>
        have hc : c.1 ≠ q := fun heq => hhead (congrArg some heq)
        have hcle : c.1 ≤ q := hle c.1 List.mem_cons_self
        rcases List.mem_cons.mp hn with rfl | hn
        · exact Nat.lt_of_le_of_ne hcle hc
        · have hlt : c.1 > n := (List.pairwise_cons.mp hfall).1 n hn
          exact Nat.lt_of_lt_of_le hlt hcle
    · intro n hn
      rcases List.mem_cons.mp hn with rfl | hn
      · exact Nat.le_refl _
      · exact hle n hn
    · intro v hv hmark
      rcases List.mem_cons.mp hv with rfl | hv
      · exact absurd hmark hq
      · exact hsame v hv hmark

/-- The document is saved under its number. -/
theorem Marked.save (h : t.Marked q base mark saved) : t.Marked q base (t.stamp base) t.now := by
  refine ⟨h.falling, h.le, ?_, ?_⟩
  · -- with no number below `q` and above `base` there is no older document
    rintro rfl
    obtain ⟨past, now, future⟩ := t
    cases past with
    | nil => rfl
    | cons c older =>
      have hfall := h.falling.sublist (past_suffix q ⟨c :: older, now, future⟩).sublist
      have hlt : c.1 > q := (List.pairwise_cons.mp hfall).1 q
        (List.mem_append_right _ List.mem_cons_self)
      have hle := h.le c.1 ((past_suffix q ⟨c :: older, now, future⟩).subset List.mem_cons_self)
      omega
  · intro v hv hstamp
    have hnodup : (t.stamps base).Nodup := h.falling.imp fun hgt => Nat.ne_of_gt hgt
    obtain ⟨i, hi, hvi⟩ := List.getElem_of_mem hv
    obtain ⟨j, hj, hnow⟩ := List.getElem_of_mem (now_mem_versions base t)
    rw [versions, List.length_zip] at hi hj
    rw [← hvi] at hstamp ⊢
    simp only [versions, List.getElem_zip] at hstamp hnow ⊢
    have hij : i = j := by
      apply (List.Nodup.getElem_inj_iff hnodup).mp
      exact hstamp.trans (congrArg Prod.fst hnow).symm
    subst hij
    exact congrArg Prod.snd hnow

/-- The document is saved, and the timeline forgotten. -/
theorem marked_forget (q : ℕ) (t : Timeline α) : t.forget.Marked q q q t.now := by
  refine ⟨List.pairwise_singleton _ _, ?_, fun _ => rfl, ?_⟩
  · intro n hn
    rw [List.mem_singleton.mp hn]
  · intro v hv _
    have hv' : v = (q, t.now) := List.mem_singleton.mp hv
    rw [hv']

end Timeline
