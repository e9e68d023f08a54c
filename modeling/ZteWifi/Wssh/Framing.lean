import ZteWifi.Wssh.Session

/-!
# What a client sees

The bytes that a session puts on the socket are to be frames one after another, the last perhaps cut
short.  The loop looks at the result of `ws_send` nowhere, so this holds as long as a write fails in
no turn but the last.  A pong is as long as its ping, so no ping may be longer than a control frame.
-/

open Ascii Net

namespace Wssh

/-- The most bytes that a control frame carries. -/
@[simp] abbrev controlMax : Nat := 125

/-- A frame that the protocol lets a server send: a whole message, or a control frame. -/
structure ProperFrame extends ServerFrame where
  fin_set : fin = true
  opcode_known : opcode = 0x2 ∨ opcode = 0x8 ∨ opcode = 0xA
  control_short : 0x8 ≤ opcode → payload.length ≤ controlMax

/-- Frames one after another, the last of them perhaps unfinished. -/
def WellFramed (bs : List UInt8) : Prop :=
  ∃ fs : List ProperFrame, bs <+: fs.flatMap fun f => f.bytes

theorem WellFramed.of_prefix {bs cs : List UInt8} (h : WellFramed cs) (hbs : bs <+: cs) :
    WellFramed bs :=
  h.imp fun _ => hbs.trans

/-! ## 1. The conditions on a run -/

/-- No write on the client's socket fails in this turn. -/
def Turn.Accepted (t : Turn) : Prop := ∀ w ∈ t.writes, ¬ w.Fails

/-- The turn reads a message of the client. -/
def Turn.Reads (t : Turn) (s : Session) : Prop :=
  t.now < s.maxd ∧ t.now < s.idle ∧ t.poll = .ready ∧ t.sock.ready = true

instance (t : Turn) (s : Session) : Decidable (t.Reads s) :=
  inferInstanceAs (Decidable (_ ∧ _ ∧ _ ∧ _))

/-- A ping that the turn reads is no longer than a control frame. -/
def Turn.PingFits (t : Turn) (s : Session) : Prop :=
  t.Reads s → ∀ m ∈ (wsReadMsg ioSize s.input).1, m.1 = 0x9 → m.2.length ≤ controlMax

instance (t : Turn) (s : Session) : Decidable (t.PingFits s) :=
  inferInstanceAs (Decidable (_ → _))

/-- So is each ping of the run. -/
def PingsFit : List Turn → Session → Prop
  | [], _ => True
  | t :: ts, s => t.PingFits s ∧ ((turn t s).2 = .goOn → PingsFit ts (turn t s).1)

instance PingsFit.decidable : (ts : List Turn) → (s : Session) → Decidable (PingsFit ts s)
  | [], _ => .isTrue trivial
  | t :: ts, s =>
    have := PingsFit.decidable ts (turn t s).1
    inferInstanceAs (Decidable (_ ∧ (_ → _)))

theorem PingsFit.take {ts : List Turn} {s : Session} (h : PingsFit ts s) (n : Nat) :
    PingsFit (ts.take n) s := by
  induction ts generalizing s n with
  | nil => rwa [List.take_nil]
  | cons t ts ih =>
    cases n with
    | zero => trivial
    | succ n => exact ⟨h.1, fun hgo => ih (h.2 hgo) n⟩

/-! ## 2. One turn -/

/-- The bytes are a first part of some frames, and all of them if the turn is accepted. -/
def Sends (t : Turn) (before after : List UInt8) : Prop :=
  ∃ (fs : List ProperFrame) (part : List UInt8), after = before ++ part ∧
    part <+: (fs.flatMap fun f => f.bytes) ∧ (t.Accepted → part = fs.flatMap fun f => f.bytes)

theorem Sends.nothing (t : Turn) (bs : List UInt8) : Sends t bs bs :=
  ⟨[], [], (List.append_nil bs).symm, List.prefix_refl _, fun _ => rfl⟩

theorem sends_frame (t : Turn) (bs : List UInt8) {op : UInt8}
    (hop : op = 0x2 ∨ op = 0x8 ∨ op = 0xA) {p : List UInt8} (hp : p.length < 2 ^ 63)
    (hcontrol : 0x8 ≤ op → p.length ≤ controlMax) :
    Sends t bs (bs ++ (wsSend (firstByte true op) p t.writes).2.1) := by
  have hlt : op < 16 := by rcases hop with rfl | rfl | rfl <;> decide
  let f : ProperFrame := ⟨⟨true, op, p, hlt, hp⟩, rfl, hop, hcontrol⟩
  have hframe : ([f].flatMap fun f => f.bytes) =
      sendHeader (firstByte true op) p.length ++ p := by
    rw [sendHeader_eq, List.flatMap_cons, List.flatMap_nil, List.append_nil]
    rfl
  refine ⟨[f], _, rfl, ?_, fun haccepted => ?_⟩
  · rw [hframe]
    exact wsSend_prefix _ p t.writes
  · rw [hframe]
    exact wsSend_of_not_fails _ p haccepted

theorem ptyTurn_sends (t : Turn) (s : Session) : Sends t s.sent (ptyTurn t s).1.sent := by
  rw [ptyTurn]
  split
  · split
    · split
      · exact .nothing t _
      · refine @sends_frame t s.sent 0x2 (.inl rfl) _ ?_ (absurd · (by decide))
        rw [List.length_take]
        exact Nat.lt_of_le_of_lt (Nat.min_le_left _ _) (by decide)
    · exact .nothing t _
    · exact .nothing t _
  · exact .nothing t _

theorem restOfTurn_sends (t : Turn) (s : Session) : Sends t s.sent (restOfTurn t s).1.sent := by
  rw [restOfTurn]
  split
  · exact .nothing t _
  · exact ptyTurn_sends t s

theorem message_sends (t : Turn) {op : UInt8} {pay : List UInt8}
    (hping : op = 0x9 → pay.length ≤ controlMax) (s : Session) :
    Sends t s.sent (message t op pay s).1.sent := by
  rw [message]
  split
  · exact sends_frame t s.sent (.inr (.inl rfl)) (by decide) fun _ => Nat.zero_le _
  split
  · next hop =>
    have hlen := hping hop
    exact sends_frame t s.sent (.inr (.inr rfl)) (Nat.lt_of_le_of_lt hlen (by decide)) fun _ => hlen
  split
  · exact .nothing t _
  split
  · exact restOfTurn_sends t _
  · exact restOfTurn_sends t s

theorem turn_sends {t : Turn} {s : Session} (hping : t.PingFits s) :
    Sends t s.sent (turn t s).1.sent := by
  rw [turn]
  split
  · exact .nothing t _
  next hmaxd =>
  split
  · exact .nothing t _
  next hidle =>
  split
  · exact .nothing t _
  · exact .nothing t _
  · exact .nothing t _
  · next hpoll =>
    split
    · next hsock =>
      split
      · exact .nothing t _
      · next hread =>
        -- the guards that were passed are those of `Turn.Reads`
        refine message_sends t (fun hop => hping ?_ _ (congrArg Prod.fst hread) hop) _
        exact ⟨Nat.not_le.mp hmaxd, Nat.not_le.mp hidle, hpoll, hsock⟩
    · exact restOfTurn_sends t s

/-! ## 3. A run -/

/-- From complete frames on: as long as the earlier turns are accepted, the stream stays framed. -/
theorem loop_wellFramed (ts : List Turn) (s : Session) (fs : List ProperFrame)
    (hs : s.sent = fs.flatMap fun f => f.bytes) (hts : ∀ t ∈ ts.dropLast, t.Accepted)
    (hpings : PingsFit ts s) : WellFramed (loop ts s).sent := by
  induction ts generalizing s fs with
  | nil => exact ⟨fs, by rw [loop, hs]⟩
  | cons t ts ih =>
    obtain ⟨hping, hrest⟩ := hpings
    obtain ⟨gs, part, hsent, hpre, hall⟩ := turn_sends hping
    have hframed : WellFramed (turn t s).1.sent := by
      refine ⟨fs ++ gs, ?_⟩
      rw [hsent, hs, List.flatMap_append]
      exact (List.prefix_append_right_inj _).mpr hpre
    rw [loop]
    rcases hturn : turn t s with ⟨s', _ | _⟩
    · rw [hturn] at hsent hframed hrest
      cases ts with
      | nil => exact hframed
      | cons t' ts =>
        have haccepted : t.Accepted := hts t List.mem_cons_self
        refine ih s' (fs ++ gs) ?_ (fun t ht => hts t (List.mem_cons_of_mem _ ht)) (hrest rfl)
        rw [hsent, hs, hall haccepted, List.flatMap_append]
    · rw [hturn] at hframed
      exact hframed

theorem dropLast_take_subset {α : Type} (l : List α) (n : Nat) :
    ∀ a ∈ (l.take n).dropLast, a ∈ l.dropLast := by
  intro a ha
  rw [List.dropLast_eq_take, List.take_take] at ha
  rw [List.dropLast_eq_take]
  refine (List.take_prefix_take_left ?_).subset ha
  rw [List.length_take]
  omega

/-- At any time of a session in which no write fails before the last turn and no ping is longer than
a control frame, the socket has got frames, the last perhaps unfinished. -/
theorem wsSession_wellFramed (input : List Recv) (start : Nat) (ts : List Turn)
    (hts : ∀ t ∈ ts.dropLast, t.Accepted) (hpings : PingsFit ts (.begin input start)) (n : Nat) :
    WellFramed (wsSession input start (ts.take n)).sent :=
  loop_wellFramed _ _ [] rfl (fun t ht => hts t (dropLast_take_subset ts n t ht)) (hpings.take n)

/-- A turn in which the shell has written something. -/
def shellTurn (bs : List UInt8) (writes : List Write) : Turn :=
  ⟨.ready, 0, ⟨false, false⟩, ⟨true, false⟩, .data bs, writes, []⟩

/-- A ping, and an output of the shell that the client takes only in part. -/
theorem wsSession_wellFramed_two : WellFramed
    (wsSession [.data [0x89, 0x82, 0, 0, 0, 0, 0x68, 0x69]] 0
      ([⟨.ready, 0, ⟨true, false⟩, ⟨false, false⟩, .again, [.took 1], []⟩,
        shellTurn [0x63] [.took 2, .error]].take 2)).sent :=
  wsSession_wellFramed _ 0 _ (by
    intro t ht w hw
    obtain rfl := List.mem_singleton.mp ht
    obtain rfl := List.mem_singleton.mp hw
    rintro (⟨⟨⟩⟩ | ⟨⟨⟩⟩)) (by decide +kernel) 2

theorem firstByte_rsv : ∀ (fin : Bool) (op : UInt8), op < 16 → firstByte fin op &&& 0x70 = 0 := by
  decide +kernel

/-- The second byte of a short frame is the length of its payload. -/
theorem ServerFrame.payload_of_bytes {f : ServerFrame} {b n : UInt8} {s u : List UInt8}
    (h : f.bytes ++ u = b :: n :: s) (hn : n < 126) :
    f.payload.length = n.toNat ∧ f.payload ++ u = s := by
  rw [bytes, lengthField] at h
  by_cases hlen : f.payload.length < 126
  · rw [if_pos hlen, UInt8.zero_or] at h
    obtain ⟨hlength, hrest⟩ := List.cons.inj (List.cons.inj h).2
    refine ⟨?_, hrest⟩
    rw [← hlength, UInt8.toNat_ofNat', Nat.mod_eq_of_lt (by omega)]
  · rw [if_neg hlen] at h
    split at h <;> cases h <;> exact absurd hn (by decide)

/-- A frame of three bytes of which one is taken before the client stalls, and the next frame behind
it. -/
theorem not_wsSession_wellFramed_stalled :
    ¬ ∀ (input : List Recv) (start : Nat) (ts : List Turn) (n : Nat),
      WellFramed (wsSession input start (ts.take n)).sent := by
  intro h
  obtain ⟨fs, rest, hfs⟩ := h [] 0 [shellTurn [0x61, 0x62, 0x63] [.took 2, .took 1, .error],
    shellTurn [0x64] []] 2
  have hsent : (wsSession [] 0 ([shellTurn [0x61, 0x62, 0x63] [.took 2, .took 1, .error],
    shellTurn [0x64] []].take 2)).sent = [0x82, 3, 0x61, 0x82, 1, 0x64] := by decide +kernel
  rw [hsent] at hfs
  cases fs with
  | nil => cases hfs
  | cons f fs =>
    rw [List.flatMap_cons] at hfs
    obtain ⟨hlen, hpay⟩ := ServerFrame.payload_of_bytes hfs.symm (by decide)
    -- the payload takes the next three bytes, and no frame starts with the one behind them
    have hnext : (fs.flatMap fun f => f.bytes) = 0x64 :: rest := by
      have hdrop := congrArg (List.drop f.payload.length) hpay
      rwa [List.drop_left, hlen] at hdrop
    cases fs with
    | nil => cases hnext
    | cons g gs =>
      rw [List.flatMap_cons, ServerFrame.bytes, List.cons_append] at hnext
      have hrsv := firstByte_rsv g.fin g.opcode g.opcode_lt
      rw [(List.cons.inj hnext).1] at hrsv
      exact absurd hrsv (by decide)

end Wssh
