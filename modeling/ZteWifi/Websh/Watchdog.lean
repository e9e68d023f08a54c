import Mathlib.Algebra.GroupWithZero.Nat

/-!
# The watchdog

The grandchild of `websh.c` that waits at a pipe whose write end all processes of the session have
inherited, and kills their group.  Each of its waits is given the whole limit anew.
-/

namespace Websh

/-! ## 1. The loop -/

/-- `CHILD_WALL_LIMIT` -/
def childWallLimit : Nat := 120

/-- The timeout of `poll`, in milliseconds. -/
def pollMs : Nat := (childWallLimit + 2) * 1000

/-- The result of reading one byte from the pipe. -/
inductive PipeRead
  | byte | eof | intr | error
  deriving DecidableEq, Repr

/-- The result of `poll`, and of the `read` that follows it when the pipe is readable or hung up. -/
inductive Event
  | timeout
  | intr
  | error
  /-- None of `POLLIN`, `POLLHUP` and `POLLERR`. -/
  | other
  | ready (read : PipeRead)
  deriving DecidableEq, Repr

/-- One turn of the loop and the time it has waited.  A `poll` returns before its timeout, or when it
is over. -/
structure Wake where
  event : Event
  ms : Nat
  ms_le : ms ≤ pollMs
  timeout_ms : event = .timeout → ms = pollMs

/-- Whether the watchdog goes on, or has sent `SIGKILL`, or has left without it. -/
inductive Fate
  | watching | killed | left
  deriving DecidableEq, Repr

def Event.fate : Event → Fate
  | .timeout => .killed
  | .intr => .watching
  | .error => .left
  | .other => .watching
  | .ready .byte => .watching
  -- the last holder of the write end is gone
  | .ready .eof => .killed
  | .ready .intr => .watching
  | .ready .error => .left

/-- The watchdog, and how long it has waited. -/
structure Watch where
  waited : Nat
  fate : Fate
  deriving DecidableEq, Repr

def Watch.step (s : Watch) (w : Wake) : Watch :=
  match s.fate with
  | .watching => ⟨s.waited + w.ms, w.event.fate⟩
  | .killed | .left => s

def watch (ws : List Wake) : Watch := ws.foldl Watch.step ⟨0, .watching⟩

/-! ## 2. How long it waits -/

/-- The turn does not end the loop. -/
def Wake.goesOn (w : Wake) : Bool := w.event.fate = .watching

/-- The turns before the one that ends the loop. -/
def interruptions (ws : List Wake) : List Wake := ws.takeWhile Wake.goesOn

/-- The turn that ends the loop. -/
def lastTurn (ws : List Wake) : Option Wake := (ws.dropWhile Wake.goesOn).head?

def total (ws : List Wake) : Nat := (ws.map Wake.ms).sum

theorem total_cons (w : Wake) (ws : List Wake) : total (w :: ws) = w.ms + total ws := by
  rw [total, List.map_cons, List.sum_cons, total]

theorem total_eq_zero {ws : List Wake} : total ws = 0 ↔ ∀ w ∈ ws, w.ms = 0 := by
  rw [total, List.sum_eq_zero_iff_forall_eq_nat]
  exact List.forall_mem_map

theorem foldl_step_of_ended {s : Watch} (h : s.fate ≠ .watching) (ws : List Wake) :
    ws.foldl Watch.step s = s := by
  have hstep : ∀ w, s.step w = s := by
    intro w
    unfold Watch.step
    cases hs : s.fate with
    | watching => exact absurd hs h
    | killed => rfl
    | left => rfl
  induction ws with
  | nil => rfl
  | cons w ws ih => rw [List.foldl_cons, hstep w, ih]

theorem foldl_step_waited (n : Nat) (ws : List Wake) :
    (ws.foldl Watch.step ⟨n, .watching⟩).waited =
      n + total (interruptions ws) + total (lastTurn ws).toList := by
  induction ws generalizing n with
  | nil => rfl
  | cons w ws ih =>
    have hstep : Watch.step ⟨n, .watching⟩ w = ⟨n + w.ms, w.event.fate⟩ := rfl
    rw [List.foldl_cons, hstep]
    unfold interruptions lastTurn
    by_cases hon : w.event.fate = .watching
    · have hgoes : w.goesOn = true := decide_eq_true hon
      rw [hon, ih, List.takeWhile_cons_of_pos hgoes, List.dropWhile_cons_of_pos hgoes]
      show n + w.ms + total (interruptions ws) + _ = n + total (w :: interruptions ws) + _
      rw [total_cons, lastTurn]
      omega
    · have hgoes : ¬ w.goesOn = true := fun h => hon (of_decide_eq_true h)
      rw [foldl_step_of_ended hon, List.takeWhile_cons_of_neg hgoes,
        List.dropWhile_cons_of_neg hgoes]
      show n + w.ms = n + 0 + (w.ms + 0)
      omega

/-- The waits before the last turn and the last one. -/
theorem watch_waited (ws : List Wake) :
    (watch ws).waited = total (interruptions ws) + total (lastTurn ws).toList := by
  unfold watch
  rw [foldl_step_waited, Nat.zero_add]

/-! ## 3. The limit -/

/-- Nothing makes the watchdog wait too long: a timeout comes when no earlier wait has taken any time,
and everything else within the limit from the start on. -/
def Undelayed (ws : List Wake) : Prop :=
  match lastTurn ws with
  | some w =>
    if w.event = .timeout then ∀ v ∈ interruptions ws, v.ms = 0
    else total (interruptions ws) + w.ms ≤ pollMs
  | none => total (interruptions ws) ≤ pollMs

theorem watch_inTime_iff (ws : List Wake) : (watch ws).waited ≤ pollMs ↔ Undelayed ws := by
  rw [watch_waited]
  unfold Undelayed
  cases hlast : lastTurn ws with
  | none => exact Iff.rfl
  | some w =>
    show total (interruptions ws) + (w.ms + 0) ≤ pollMs ↔ _
    simp only [Nat.add_zero]
    split
    · next htimeout =>
      rw [w.timeout_ms htimeout, ← total_eq_zero]
      omega
    · exact Iff.rfl

/-- A process of the session has written a byte. -/
def byteAt (ms : Nat) (h : ms ≤ pollMs) : Wake := ⟨.ready .byte, ms, h, fun h => by cases h⟩

def timeUp : Wake := ⟨.timeout, pollMs, Nat.le_refl _, fun _ => rfl⟩

/-- With a byte now and then the kill is put off for any time. -/
theorem watch_put_off (n : Nat) : ∃ ws : List Wake, n ≤ (watch ws).waited ∧
    (watch ws).fate = .watching ∧ (watch (ws ++ [timeUp])).fate = .killed := by
  have hrun : ∀ k, watch (List.replicate k (byteAt 1000 (by decide))) = ⟨k * 1000, .watching⟩ := by
    intro k
    induction k with
    | zero => rfl
    | succ k ih =>
      unfold watch at ih ⊢
      rw [List.replicate_succ', List.foldl_append, ih, Nat.succ_mul]
      rfl
  refine ⟨List.replicate n (byteAt 1000 (by decide)), ?_, ?_, ?_⟩
  · rw [hrun]
    show n ≤ n * 1000
    omega
  · rw [hrun]
  · have hall := hrun n
    unfold watch at hall ⊢
    rw [List.foldl_append, hall]
    rfl

/-- A byte after 121 seconds. -/
theorem not_watch_inTime_byte :
    ¬ ∀ ws : List Wake, (∀ w ∈ ws, w.event.fate ≠ .left) → (watch ws).waited ≤ pollMs := by
  intro h
  have hwaited := h [byteAt 121000 (by decide), timeUp] (by
    intro w hw
    obtain rfl | hw := List.mem_cons.mp hw
    · exact fun hleft => by cases hleft
    · obtain rfl := List.mem_singleton.mp hw
      exact fun hleft => by cases hleft)
  exact absurd hwaited (by decide)

end Websh
