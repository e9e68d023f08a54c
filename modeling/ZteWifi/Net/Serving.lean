import ZteWifi.Lib.Runs
import ZteWifi.Net.Headers

/-!
# The accept loop

The loop of `main` in `websh.c` and `wssh.c`, of which both carry the same copy up to where a header
has been read.  What follows it, and what is done at each `fork`, is a `Program`.

A step of the parent is one system call with the code up to the next one, `read_headers` being one
call here.  Children end at any time between the calls.  `SIGCHLD` has its default action, so that a
child that has ended stays until the parent waits for it.
-/

open Ascii

namespace Net

/-! ## 1. The parent and its children -/

/-- `MAX_CHILDREN` -/
@[simp] abbrev maxChildren : Nat := 3

/-- `ALLOW_MASK` -/
def allowMask : UInt32 := 0xFFFFFF00

/-- `ALLOW_NET` -/
def allowNet : UInt32 := 0xC0A80000

/-- The call that the parent makes next; `κ` are the forks it can come to. -/
inductive Pc (κ : Type)
  | accept
  | waitpid
  | recv
  | fork (k : κ)
  | sleep
  deriving DecidableEq, Repr

/-- An entry of the process table. -/
structure Child where
  pid : Nat
  exited : Bool
  deriving DecidableEq, Repr

structure Server (κ : Type) where
  pc : Pc κ
  /-- `active_children` -/
  active : Int
  /-- The children that have not been waited for. -/
  children : List Child

def Server.start {κ : Type} : Server κ := ⟨.accept, 0, []⟩

/-- What a program does with a header, and what it does when `fork` has returned. -/
structure Program (κ : Type) where
  /-- The status that is answered, or the fork that `main` comes to. -/
  dispatch : List UInt8 → Except (List UInt8) κ
  /-- `active_children` and the next call, from the process that `fork` returns to the parent, or
  `none` for `-1`. -/
  afterFork : κ → Option Nat → Int → Int × Pc κ

section
variable {κ : Type} (P : Program κ) (s : Server κ)

/-- What follows `read_headers`. -/
def Program.afterHead (h : Head) : Pc κ :=
  -- the result `-2` is answered and `-1` is not, and both close the connection
  if h.ret < 0 then .accept
  else
    match P.dispatch (h.buf.take h.ret.toNat) with
    | .error _ => .accept
    | .ok k => .fork k

/-- One turn of `reap_children`, whose `waitpid` has returned `pid`. -/
def Server.reap (pid : Nat) : Server κ :=
  { s with
    active := if s.active > 0 then s.active - 1 else s.active
    children := s.children.erase ⟨pid, true⟩ }

/-- `waitpid` has returned nothing, and the counter is compared. -/
def Server.check : Server κ :=
  { s with pc := if s.active ≥ maxChildren then .sleep else .recv }

def Server.afterFork (k : κ) (pid : Option Nat) : Server κ :=
  let (active, pc) := P.afterFork k pid s.active
  ⟨pc, active, (pid.map fun pid => ⟨pid, false⟩).toList ++ s.children⟩

/-- The child ends. -/
def Server.exit (pid : Nat) : Server κ :=
  { s with
    children := s.children.map fun c => if c.pid = pid then { c with exited := true } else c }

/-- The processes in the table. -/
def Server.pids : List Nat := s.children.map Child.pid

/-- The children that have not ended. -/
def Server.alive : List Child := s.children.filter fun c => ¬ c.exited

def Server.AllExited : Prop := ∀ c ∈ s.children, c.exited

end

/-- What happens in a step. -/
inductive Event
  | acceptFails
  | accepted (ip : UInt32)
  | reaped (pid : Nat)
  /-- The counter that is compared with `MAX_CHILDREN`. -/
  | checked (active : Int)
  | header
  | forked (pid : Nat)
  | forkFails
  | slept
  | exits (pid : Nat)
  deriving DecidableEq, Repr

def Event.forkedPid : Event → Option Nat
  | .forked pid => some pid
  | _ => none

def Event.reapedPid : Event → Option Nat
  | .reaped pid => some pid
  | _ => none

/-- The children that are forked in a run. -/
def forkedPids (es : List Event) : List Nat := es.filterMap Event.forkedPid

/-- The children that are waited for in a run. -/
def reapedPids (es : List Event) : List Nat := es.filterMap Event.reapedPid

/-- A step of the parent, or the end of a child. -/
inductive Step {κ : Type} (P : Program κ) : Server κ → Event → Server κ → Prop
  -- `EINTR` and `ECONNABORTED` are tried again at once
  | acceptFails {s} (brief : Bool) (h : s.pc = .accept) :
      Step P s .acceptFails { s with pc := if brief then .accept else .sleep }
  | accepted {s} (ip : UInt32) (h : s.pc = .accept) :
      Step P s (.accepted ip)
        { s with pc := if ip &&& allowMask ≠ allowNet then .accept else .waitpid }
  | reaped {s} {pid : Nat} (h : s.pc = .waitpid) (hexited : ⟨pid, true⟩ ∈ s.children) :
      Step P s (.reaped pid) (s.reap pid)
  | checked {s} (h : s.pc = .waitpid) (hnone : ∀ c ∈ s.children, ¬ c.exited) :
      Step P s (.checked s.active) s.check
  | header {s} (late : Nat → Bool) (rs : List Recv) (h : s.pc = .recv) :
      Step P s .header { s with pc := P.afterHead (readHeaders late rs) }
  | forked {s k} (pid : Nat) (h : s.pc = .fork k) (hfresh : pid ∉ s.pids) :
      Step P s (.forked pid) (s.afterFork P k (some pid))
  | forkFails {s k} (h : s.pc = .fork k) : Step P s .forkFails (s.afterFork P k none)
  | slept {s} (h : s.pc = .sleep) : Step P s .slept { s with pc := .accept }
  | exits {s} {pid : Nat} (h : ⟨pid, false⟩ ∈ s.children) : Step P s (.exits pid) (s.exit pid)

/-! ## 2. The counter -/

/-- At a fork the counter goes up by one if there is a new child, and the parent is done with the
connection. -/
structure Program.Counts {κ : Type} (P : Program κ) : Prop where
  child : ∀ k pid n, (P.afterFork k (some pid) n).1 = n + 1
  failed : ∀ k n, (P.afterFork k none n).1 = n
  done : ∀ k pid n, (P.afterFork k pid n).2 = .accept ∨ (P.afterFork k pid n).2 = .sleep

/-- The connection has passed the comparison with `MAX_CHILDREN`. -/
def Pc.Admitted {κ : Type} : Pc κ → Prop
  | .recv | .fork _ => True
  | _ => False

/-- The counter is exact, and there is room for a child where the next call can lead to a fork. -/
structure Server.Counted {κ : Type} (s : Server κ) : Prop where
  exact : s.active = s.children.length
  le_max : s.children.length ≤ maxChildren
  room : s.pc.Admitted → s.children.length < maxChildren

section
variable {κ : Type} {P : Program κ} {s t : Server κ} {e : Event}

theorem Server.Counted.start : (Server.start : Server κ).Counted :=
  ⟨rfl, Nat.zero_le _, fun h => h.elim⟩

/-- A step that leaves children and counter alone. -/
theorem Server.Counted.moves (h : s.Counted) {pc : Pc κ}
    (hpc : pc.Admitted → s.children.length < maxChildren) : { s with pc := pc }.Counted :=
  ⟨h.exact, h.le_max, hpc⟩

theorem Server.Counted.reap (h : s.Counted) {pid : Nat} (hexited : ⟨pid, true⟩ ∈ s.children)
    (hpc : ¬ s.pc.Admitted) : (s.reap pid).Counted ∧ (s.reap pid).active = s.active - 1 := by
  have hlen := List.length_erase_of_mem hexited
  have hpos := List.length_pos_of_mem hexited
  have hexact := h.exact
  have hle := h.le_max
  -- the guard holds, so it hides nothing
  have hactive : (s.reap pid).active = s.active - 1 := if_pos (by omega)
  refine ⟨⟨?_, ?_, fun hadm => absurd hadm hpc⟩, hactive⟩
  · rw [hactive, hexact, Server.reap, hlen]
    omega
  · rw [Server.reap, hlen]
    omega

theorem Server.Counted.check (h : s.Counted) : s.check.Counted := by
  apply h.moves
  have hexact := h.exact
  split
  · exact fun hadm => hadm.elim
  · next hlt =>
    intro _
    omega

theorem Server.Counted.fork (hP : P.Counts) (h : s.Counted) {k : κ} (hpc : s.pc = .fork k)
    (pid : Option Nat) : (s.afterFork P k pid).Counted := by
  have hexact := h.exact
  -- a connection that comes to a fork has been admitted
  have hroom := h.room (by rw [hpc]; trivial)
  have hdone : ¬ (s.afterFork P k pid).pc.Admitted := by
    rcases hP.done k pid s.active with hpc' | hpc'
    · rw [show (s.afterFork P k pid).pc = .accept from hpc']
      exact fun hadm => hadm
    · rw [show (s.afterFork P k pid).pc = .sleep from hpc']
      exact fun hadm => hadm
  -- with a child both the table and the counter grow by one
  cases pid with
  | none =>
    refine ⟨?_, h.le_max, fun hadm => absurd hadm hdone⟩
    exact (hP.failed k s.active).trans hexact
  | some pid =>
    have hactive : (s.afterFork P k (some pid)).active = s.active + 1 := hP.child k pid s.active
    have hlen : (s.afterFork P k (some pid)).children.length = s.children.length + 1 := rfl
    refine ⟨?_, ?_, fun hadm => absurd hadm hdone⟩
    · rw [hactive, hlen, hexact]
      rfl
    · rw [hlen]
      omega

theorem Server.Counted.exit (h : s.Counted) (pid : Nat) : (s.exit pid).Counted := by
  have hlen : (s.exit pid).children.length = s.children.length := List.length_map _
  refine ⟨?_, ?_, fun hadm => ?_⟩
  · rw [hlen]
    exact h.exact
  · rw [hlen]
    exact h.le_max
  · rw [hlen]
    exact h.room hadm

/-- Every step keeps the counter exact. -/
theorem Server.Counted.step (hP : P.Counts) (hs : s.Counted) (h : Step P s e t) : t.Counted := by
  cases h with
  | acceptFails brief hpc =>
    apply hs.moves
    cases brief <;> exact fun hadm => hadm.elim
  | accepted ip hpc =>
    apply hs.moves
    split <;> exact fun hadm => hadm.elim
  | reaped hpc hexited => exact (hs.reap hexited (by rw [hpc]; exact fun hadm => hadm)).1
  | checked hpc hnone => exact hs.check
  | header late rs hpc =>
    apply hs.moves
    exact fun _ => hs.room (by rw [hpc]; trivial)
  | forked pid hpc hfresh => exact hs.fork hP hpc (some pid)
  | forkFails hpc => exact hs.fork hP hpc none
  | slept hpc => exact hs.moves fun hadm => hadm.elim
  | exits hmem => exact hs.exit _

/-! ## 3. The children that have been forked and not yet reaped -/

theorem Server.pids_exit (s : Server κ) (pid : Nat) : (s.exit pid).pids = s.pids := by
  rw [pids, exit, List.map_map]
  apply List.map_congr_left
  intro c _
  rw [Function.comp_apply]
  split <;> rfl

theorem Server.pids_reap {pid : Nat} (h : ⟨pid, true⟩ ∈ s.children) :
    s.pids.Perm (pid :: (s.reap pid).pids) :=
  (List.perm_cons_erase h).map Child.pid

/-- A fork puts a child into the table, and a wait takes one out. -/
theorem step_pids (h : Step P s e t) :
    (e.forkedPid.toList ++ s.pids).Perm (e.reapedPid.toList ++ t.pids) := by
  cases h with
  | reaped hpc hexited => exact Server.pids_reap hexited
  | forkFails hpc => exact .refl _
  | exits hmem =>
    rw [Server.pids_exit]
    exact .refl _
  | _ => exact .refl _

theorem run_pids {es : List Event} (h : Run (Step P) s es t) :
    (forkedPids es ++ s.pids).Perm (reapedPids es ++ t.pids) :=
  h.balance fun _ _ _ hstep => step_pids hstep

/-! ## 4. When all children have ended -/

/-- As long as nothing is forked, no child lives again. -/
theorem Server.AllExited.step (hs : s.AllExited) (h : Step P s e t) (he : e.forkedPid = none) :
    t.AllExited := by
  cases h with
  | reaped hpc hexited => exact fun c hc => hs c (List.mem_of_mem_erase hc)
  | forked pid hpc hfresh => cases he
  | forkFails hpc => exact hs
  | exits hmem => exact absurd (hs _ hmem) Bool.false_ne_true
  | _ => exact hs

/-- The counter that is compared next is 0. -/
theorem checked_zero {n : Int} (hs : s.Counted) (hall : s.AllExited)
    (h : Step P s (.checked n) t) : n = 0 := by
  cases h with
  | checked hpc hnone =>
    -- a child would have ended, and `waitpid` would have returned it
    have hnil : s.children = [] := by
      rw [List.eq_nil_iff_forall_not_mem]
      exact fun c hc => hnone c hc (hall c hc)
    rw [hs.exact, hnil]
    rfl

theorem run_checked_zero (hP : P.Counts) (hs : s.Counted) (hall : s.AllExited) {es : List Event}
    (h : Run (Step P) s es t) (hes : forkedPids es = []) {n : Int} (hn : .checked n ∈ es) :
    n = 0 := by
  induction h with
  | nil s => cases hn
  | @cons s t u e es hstep _ ih =>
    -- neither this event nor a later one is a fork
    obtain ⟨he, hrest⟩ : e.forkedPid = none ∧ forkedPids es = [] := by
      rw [forkedPids, List.filterMap_cons] at hes
      cases he : e.forkedPid with
      | none =>
        rw [he] at hes
        exact ⟨rfl, hes⟩
      | some pid =>
        rw [he] at hes
        cases hes
    rcases List.mem_cons.mp hn with rfl | hlater
    · exact checked_zero hs hall hstep
    · exact ih (hs.step hP hstep) (hall.step hstep he) hrest hlater

/-- `reap_children` takes all of them out of the table, and then the counter is 0. -/
theorem reaps_all (hs : s.Counted) (hall : s.AllExited) (hpc : s.pc = .waitpid) :
    ∃ t, Run (Step P) s (s.pids.map .reaped ++ [.checked 0]) t := by
  obtain ⟨n, hn⟩ : ∃ n, s.children.length = n := ⟨_, rfl⟩
  -- one child less in the table at each turn
  induction n generalizing s with
  | zero =>
    have hnil : s.children = [] := List.eq_nil_of_length_eq_zero hn
    have hzero : s.active = 0 := by rw [hs.exact, hn]; rfl
    have hcheck : Step P s (.checked s.active) s.check :=
      .checked hpc fun c hc => by rw [hnil] at hc; cases hc
    rw [hzero] at hcheck
    rw [Server.pids, hnil]
    exact ⟨_, .single hcheck⟩
  | succ n ih =>
    obtain ⟨⟨pid, exited⟩, cs, hcs⟩ := List.exists_cons_of_length_eq_add_one hn
    have hmem : ⟨pid, exited⟩ ∈ s.children := by rw [hcs]; exact List.mem_cons_self
    obtain rfl : exited = true := hall _ hmem
    have hrest : (s.reap pid).children = cs := by rw [Server.reap, hcs, List.erase_cons_head]
    have hadm : ¬ s.pc.Admitted := by rw [hpc]; exact fun hadm => hadm
    obtain ⟨t, hrun⟩ := ih (hs.reap hmem hadm).1 (fun c hc => hall c (List.mem_of_mem_erase hc)) hpc
      (by rw [hrest]; rw [hcs] at hn; exact Nat.succ.inj hn)
    refine ⟨t, ?_⟩
    rw [Server.pids, hcs]
    rw [Server.pids, hrest] at hrun
    exact .cons (.reaped hpc hmem) hrun

/-! ## 5. What holds of a run -/

/-- What a run from the start has come to: the counter is that of the children forked and not yet
reaped, there are at most three of them, the guard of `reap_children` never keeps it from going down,
and once all have ended the next connection from the network finds 0. -/
structure Supervised (P : Program κ) (es : List Event) (s : Server κ) : Prop where
  table : (forkedPids es).Perm (reapedPids es ++ s.pids)
  exact : s.active = (forkedPids es).length - (reapedPids es).length
  le_max : s.active ≤ maxChildren
  alive_le : s.alive.length ≤ maxChildren
  guard : ∀ pid t, Step P s (.reaped pid) t → t.active = s.active - 1
  idle : s.AllExited → ∀ es' t, Run (Step P) s es' t → forkedPids es' = [] →
    ∀ n, .checked n ∈ es' → n = 0
  next : s.AllExited → s.pc = .accept → ∀ ip, ip &&& allowMask = allowNet →
    ∃ t, Run (Step P) s (.accepted ip :: (s.pids.map .reaped ++ [.checked 0])) t

theorem supervised (hP : P.Counts) {es : List Event} (h : Run (Step P) .start es s) :
    Supervised P es s := by
  have hs : s.Counted := h.invariant (fun _ _ _ hs hstep => hs.step hP hstep) .start
  have htable : (forkedPids es).Perm (reapedPids es ++ s.pids) := by
    have hpids := run_pids h
    rwa [show (Server.start : Server κ).pids = [] from rfl, List.append_nil] at hpids
  have hlen := htable.length_eq
  rw [List.length_append, Server.pids, List.length_map] at hlen
  have hexact := hs.exact
  have hle := hs.le_max
  refine ⟨htable, by omega, by omega, (List.length_filter_le _ _).trans hle, ?guard, ?idle, ?next⟩
  case guard =>
    intro pid t hstep
    cases hstep with
    | reaped hpc hexited => exact (hs.reap hexited (by rw [hpc]; exact fun hadm => hadm)).2
  case idle =>
    intro hall es' t hrun hes n hn
    exact run_checked_zero hP hs hall hrun hes hn
  case next =>
    intro hall hpc ip hip
    -- the mask leaves the connection to `reap_children`
    have haccept : Step P s (.accepted ip) { s with pc := .waitpid } := by
      have hstep := Step.accepted (P := P) ip hpc
      rwa [if_neg (not_not.mpr hip)] at hstep
    obtain ⟨t, hrun⟩ := reaps_all (P := P) (hs.step hP haccept) hall rfl
    exact ⟨t, .cons haccept hrun⟩

end

end Net
