import ZteWifi.Wssh.Delivery
import ZteWifi.Wssh.Framing

/-!
# What the client is answered

The frames that a session puts on the socket, told apart: the control frames answer those of the
client, one by one, and the binary frames carry what the shell has written.
-/

open Ascii Net

namespace Wssh

/-! ## 1. What is to be answered -/

/-- A close frame, a ping or a pong. -/
def ServerFrame.control (f : ServerFrame) : Bool := 0x8 ≤ f.opcode

/-- The control frame, if any, with which the session answers a frame. -/
def ClientFrame.answer (f : ClientFrame) : List (UInt8 × List UInt8) :=
  if f.opcode = 0x8 then [(0x8, [])]
  else if f.opcode = 0x9 then [(0xA, f.payload)]
  else []

/-- Whether the turn that reads the frame goes on to the shell. -/
def ClientFrame.passes (f : ClientFrame) : Bool :=
  f.opcode ≠ 0x8 && f.opcode ≠ 0x9 && !(f.opcode = 0x1 && (resizeTo f.payload).isSome)

/-- What a read of the terminal gives. -/
def PtyRead.bytes : PtyRead → List UInt8
  | .data bs => bs.take ioSize
  | .again => []
  | .error => []

/-- What the shell has written when a turn comes to it. -/
def Turn.output (t : Turn) : List UInt8 :=
  if t.sock.hup = false ∧ t.pty.ready then t.read.bytes else []

/-- What the turns take from the shell, where each readable one reads one of the frames. -/
def relayed : List Turn → List ClientFrame → List UInt8
  | [], _ => []
  | t :: ts, fs =>
    if t.readable then
      match fs with
      | [] => []
      | f :: fs => (if f.passes then t.output else []) ++ relayed ts fs
    else (if t.poll = .ready then t.output else []) ++ relayed ts fs

/-! ## 2. Stretches of the stream -/

/-- Behind `before` the socket has got whole frames: their control frames are `ctl`, and the others
carry `out`. -/
def Puts (before after : List UInt8) (ctl : List (UInt8 × List UInt8)) (out : List UInt8) : Prop :=
  ∃ gs : List ServerFrame, after = before ++ gs.flatMap ServerFrame.bytes ∧
    (∀ g ∈ gs, g.fin = true) ∧
    (gs.filter ServerFrame.control).map (fun g => (g.opcode, g.payload)) = ctl ∧
    (gs.filter fun g => !g.control).flatMap ServerFrame.payload = out

theorem Puts.nothing (bs : List UInt8) : Puts bs bs [] [] :=
  ⟨[], (List.append_nil bs).symm, fun _ hg => absurd hg List.not_mem_nil, rfl, rfl⟩

theorem Puts.trans {bs bs' bs'' : List UInt8} {ctl ctl' : List (UInt8 × List UInt8)}
    {out out' : List UInt8} (h : Puts bs bs' ctl out) (h' : Puts bs' bs'' ctl' out') :
    Puts bs bs'' (ctl ++ ctl') (out ++ out') := by
  obtain ⟨gs, rfl, hfin, rfl, rfl⟩ := h
  obtain ⟨gs', rfl, hfin', rfl, rfl⟩ := h'
  refine ⟨gs ++ gs', ?_, ?_, ?_, ?_⟩
  · rw [List.flatMap_append, List.append_assoc]
  · intro g hg
    exact (List.mem_append.mp hg).elim (hfin g) (hfin' g)
  · rw [List.filter_append, List.map_append]
  · rw [List.filter_append, List.flatMap_append]

/-- One frame that the client takes. -/
theorem puts_frame {t : Turn} (ht : t.Accepted) (bs : List UInt8) {op : UInt8} (hop : op < 16)
    {p : List UInt8} (hp : p.length < 2 ^ 63) :
    Puts bs (bs ++ (wsSend (firstByte true op) p t.writes).2.1)
      (if 0x8 ≤ op then [(op, p)] else []) (if 0x8 ≤ op then [] else p) := by
  refine ⟨[⟨true, op, p, hop, hp⟩], ?_, ?_, ?_, ?_⟩
  · rw [wsSend_of_not_fails _ p ht, sendHeader_eq, List.flatMap_cons, List.flatMap_nil,
      List.append_nil]
    rfl
  · intro g hg
    rw [List.mem_singleton.mp hg]
  · by_cases h : 0x8 ≤ op
    · simp [ServerFrame.control, h]
    · simp [ServerFrame.control, h]
  · by_cases h : 0x8 ≤ op
    · simp [ServerFrame.control, h]
    · simp [ServerFrame.control, h]

/-! ## 3. One turn -/

theorem ptyTurn_puts {t : Turn} (ht : t.Accepted) (s : Session) :
    Puts s.sent (ptyTurn t s).1.sent [] (if t.pty.ready then t.read.bytes else []) := by
  rw [ptyTurn]
  split
  · split
    · next bs hread =>
      rw [hread, PtyRead.bytes]
      split
      · next hnil =>
        rw [hnil, List.take_nil]
        exact .nothing _
      · have hlen : (bs.take ioSize).length < 2 ^ 63 := by
          rw [List.length_take]
          exact Nat.lt_of_le_of_lt (Nat.min_le_left _ _) (by decide)
        exact puts_frame ht s.sent (show (0x2 : UInt8) < 16 by decide) hlen
    · next hread =>
      rw [hread]
      exact .nothing _
    · next hread =>
      rw [hread]
      exact .nothing _
  · exact .nothing _

theorem restOfTurn_puts {t : Turn} (ht : t.Accepted) (s : Session) :
    Puts s.sent (restOfTurn t s).1.sent [] t.output := by
  rw [restOfTurn, Turn.output]
  split
  · next hhup =>
    rw [if_neg fun h => absurd hhup (by rw [h.1]; decide)]
    exact .nothing _
  · next hhup =>
    rw [Bool.not_eq_true] at hhup
    simp only [hhup, true_and]
    exact ptyTurn_puts ht s

theorem turn_unreadable_puts {t : Turn} (ht : t.Accepted) (hread : t.readable = false)
    {s : Session} (hmax : t.now < s.maxd) (hidle : t.now < s.idle) :
    Puts s.sent (turn t s).1.sent [] (if t.poll = .ready then t.output else []) := by
  rw [turn, if_neg (Nat.not_le.mpr hmax), if_neg (Nat.not_le.mpr hidle)]
  cases hpoll : t.poll with
  | ready =>
    have hsock : ¬ t.sock.ready = true := by
      intro hready
      rw [Turn.readable, hpoll, hready] at hread
      exact absurd hread (by decide)
    simp only [if_neg hsock, if_true]
    exact restOfTurn_puts ht s
  | timeout => exact .nothing _
  | intr => exact .nothing _
  | error => exact .nothing _

/-- An empty frame sets no size. -/
theorem resize_isSome (op : UInt8) (pay : List UInt8) :
    (if op = 0x1 ∧ pay ≠ [] then resizeTo pay else none).isSome =
      (decide (op = 0x1) && (resizeTo pay).isSome) := by
  by_cases hop : op = 0x1
  · by_cases hnil : pay = []
    · rw [hnil, if_neg fun h => h.2 rfl]
      exact (Bool.and_false _).symm
    · rw [if_pos ⟨hop, hnil⟩, decide_eq_true hop, Bool.true_and]
  · rw [if_neg fun h => hop h.1, decide_eq_false hop, Bool.false_and]
    rfl

theorem message_puts {t : Turn} (ht : t.Accepted) {f : ClientFrame}
    (hf : f.payload.length ≤ ioSize) (s : Session) :
    Puts s.sent (message t f.opcode f.payload s).1.sent f.answer
      (if f.passes then t.output else []) := by
  unfold message ClientFrame.answer ClientFrame.passes
  by_cases hclose : f.opcode = 0x8
  · simp only [hclose, if_true]
    exact puts_frame ht s.sent (show (0x8 : UInt8) < 16 by decide) (by decide)
  simp only [hclose, if_false]
  by_cases hping : f.opcode = 0x9
  · simp only [hping, if_true]
    exact puts_frame ht s.sent (show (0xA : UInt8) < 16 by decide)
      (Nat.lt_of_le_of_lt hf (by decide))
  have hsize := resize_isSome f.opcode f.payload
  simp only [hclose, hping, if_false, ← hsize, ne_eq, not_false_eq_true, decide_true, Bool.true_and]
  cases (if f.opcode = 0x1 ∧ ¬ f.payload = [] then resizeTo f.payload else none) with
  | some size => exact .nothing _
  | none =>
    -- typed or not, the turn goes on to the shell
    simp only
    split
    · exact restOfTurn_puts ht _
    · exact restOfTurn_puts ht s

theorem message_input (t : Turn) (op : UInt8) (pay : List UInt8) (s : Session) :
    (message t op pay s).1.input = s.input := by
  rw [message]
  split
  · rfl
  split
  · rfl
  split
  · rfl
  split
  · exact (restOfTurn_keeps t _).1
  · exact (restOfTurn_keeps t s).1

/-! ## 4. A run -/

/-- What the turns that are executed put on the socket. -/
theorem loop_puts (fs : List ClientFrame) (ts : List Turn) (s : Session)
    (hinput : Arrives s.input (fs.flatMap ClientFrame.bytes))
    (hfs : ∀ f ∈ fs, f.payload.length ≤ ioSize) (huntimed : Untimed ts s)
    (haccepted : ∀ t ∈ ts, t.Accepted) :
    Puts s.sent (loop ts s).sent
      ((fs.take ((executed ts s).countP Turn.readable)).flatMap ClientFrame.answer)
      (relayed (executed ts s) fs) := by
  induction ts generalizing fs s with
  | nil =>
    rw [loop, executed, List.countP_nil, List.take_zero]
    exact .nothing _
  | cons t ts ih =>
    obtain ⟨hmax, hidle, hrest⟩ := huntimed
    have ht := haccepted t List.mem_cons_self
    have hts : ∀ t ∈ ts, t.Accepted := fun t ht => haccepted t (List.mem_cons_of_mem _ ht)
    rw [loop, executed]
    cases hread : t.readable with
    | false =>
      have hputs := turn_unreadable_puts ht hread hmax hidle
      obtain ⟨hsame, -⟩ := turn_unreadable hread s
      rcases hturn : turn t s with ⟨s', _ | _⟩
      · rw [hturn] at hputs hsame hrest
        simp only at hputs hsame hrest ⊢
        have hlater := ih fs s' (hsame ▸ hinput) hfs hrest hts
        simp only [List.countP_cons, hread, relayed, Bool.false_eq_true, if_false, Nat.add_zero]
        exact hputs.trans hlater
      · rw [hturn] at hputs
        simp only [List.countP_cons, List.countP_nil, hread, relayed, Bool.false_eq_true, if_false,
          Nat.add_zero, List.take_zero, List.flatMap_nil, List.append_nil]
        exact hputs
    | true =>
      rw [turn_readable hread hmax hidle] at hrest ⊢
      cases fs with
      | nil =>
        -- nothing is left to read, so the loop ends
        obtain ⟨rs, hclosed⟩ := wsReadMsg_closed hinput ioSize
        simp only [hclosed, relayed, hread, if_true, List.take_nil, List.flatMap_nil]
        exact .nothing _
      | cons f fs =>
        obtain ⟨rs, hmsgread, harrives⟩ := wsReadMsg_arrives hinput (hfs f List.mem_cons_self)
        rw [hmsgread] at hrest ⊢
        have hputs := message_puts ht (hfs f List.mem_cons_self) { s with input := rs }
        have hsame := message_input t f.opcode f.payload { s with input := rs }
        rcases hmsg : message t f.opcode f.payload { s with input := rs } with ⟨s', _ | _⟩
        · rw [hmsg] at hputs hsame
          simp only [hmsg] at hputs hsame hrest ⊢
          have hlater := ih fs s' (hsame ▸ harrives)
            (fun f hf => hfs f (List.mem_cons_of_mem _ hf)) hrest hts
          simp only [List.countP_cons, hread, relayed, if_true, List.take_succ_cons,
            List.flatMap_cons]
          exact hputs.trans hlater
        · rw [hmsg] at hputs
          simp only [hmsg, List.countP_cons, List.countP_nil, hread, relayed, if_true, Nat.zero_add,
            List.take_succ_cons, List.take_zero, List.flatMap_cons, List.flatMap_nil,
            List.append_nil]
          exact hputs

/-- In a session that no timeout ends and whose writes the client takes, the socket gets whole
frames.  Its control frames are the answers to the frames that have been read: a pong for each ping,
with its payload, and a close frame for a close frame.  Its other frames carry what the shell has
written in the turns that came to it. -/
theorem wsSession_answers (input : List Recv) (start : Nat) (ts : List Turn)
    (fs : List ClientFrame) (hinput : Arrives input (fs.flatMap ClientFrame.bytes))
    (hfs : ∀ f ∈ fs, f.payload.length ≤ ioSize) (huntimed : Untimed ts (.begin input start))
    (haccepted : ∀ t ∈ ts, t.Accepted) :
    let run := executed ts (.begin input start)
    ∃ gs : List ServerFrame,
      (wsSession input start ts).sent = gs.flatMap ServerFrame.bytes ∧
      (∀ g ∈ gs, g.fin = true) ∧
      (gs.filter ServerFrame.control).map (fun g => (g.opcode, g.payload)) =
        (fs.take (run.countP Turn.readable)).flatMap ClientFrame.answer ∧
      (gs.filter fun g => !g.control).flatMap ServerFrame.payload = relayed run fs :=
  loop_puts fs ts (.begin input start) hinput hfs huntimed haccepted

/-- A ping in the first turn. -/
theorem wsSession_answers_ping :
    let fs := [dataFrame true 9 (by decide) 0x61]
    let input := [.intr, .data (fs.flatMap ClientFrame.bytes)]
    let run := executed [clientTurn] (.begin input 0)
    ∃ gs : List ServerFrame,
      (wsSession input 0 [clientTurn]).sent = gs.flatMap ServerFrame.bytes ∧
      (∀ g ∈ gs, g.fin = true) ∧
      (gs.filter ServerFrame.control).map (fun g => (g.opcode, g.payload)) =
        (fs.take (run.countP Turn.readable)).flatMap ClientFrame.answer ∧
      (gs.filter fun g => !g.control).flatMap ServerFrame.payload = relayed run fs := by
  intro fs input run
  apply wsSession_answers input 0 [clientTurn] fs
  · exact .intr (arrives_whole (List.cons_ne_nil _ _))
  · decide
  · refine ⟨(clientTurn_untimed input).1, (clientTurn_untimed input).2, ?_⟩
    split <;> trivial
  · intro t ht
    rw [List.mem_singleton.mp ht]
    exact fun w hw => absurd hw List.not_mem_nil

end Wssh
