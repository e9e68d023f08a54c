import ZteWifi.Wssh.Session

/-!
# What a shell is given

The payloads of the text and binary frames of the client reach the terminal, one frame in each turn
that finds something to read, except those that set its size.  The frames of a message that is sent
in fragments are not put together: its continuation frames are dropped.
-/

open Ascii Net

namespace Wssh

/-! ## 1. What is to be typed -/

/-- What a frame types. -/
def ClientFrame.typed (f : ClientFrame) : List UInt8 :=
  if f.opcode = 0x1 ∧ (resizeTo f.payload).isSome then []
  else if f.opcode = 0x1 ∨ f.opcode = 0x2 then f.payload
  else []

/-- What the frames before the first close frame type. -/
def typedBefore (fs : List ClientFrame) : List UInt8 :=
  (fs.takeWhile (·.opcode ≠ 0x8)).flatMap ClientFrame.typed

theorem typedBefore_cons (f : ClientFrame) (fs : List ClientFrame) :
    typedBefore (f :: fs) = if f.opcode = 0x8 then [] else f.typed ++ typedBefore fs := by
  rw [typedBefore]
  by_cases hop : f.opcode = 0x8
  · rw [if_pos hop, List.takeWhile_cons_of_neg (by simpa using hop), List.flatMap_nil]
  · rw [if_neg hop, List.takeWhile_cons_of_pos (by simpa using hop), List.flatMap_cons, typedBefore]

/-- There is something to read from the client. -/
def Turn.readable (t : Turn) : Bool := t.poll = .ready && t.sock.ready

/-- The terminal takes what it is given in this turn. -/
def Turn.PtyAccepts (t : Turn) : Prop := ∀ w ∈ t.ptyWrites, ¬ w.Fails

/-- The turns up to the one that ends the loop. -/
def executed : List Turn → Session → List Turn
  | [], _ => []
  | t :: ts, s =>
    match turn t s with
    | (_, .stop) => [t]
    | (s, .goOn) => t :: executed ts s

/-- No timeout fires. -/
def Untimed : List Turn → Session → Prop
  | [], _ => True
  | t :: ts, s =>
    t.now < s.maxd ∧ t.now < s.idle ∧
      match turn t s with
      | (_, .stop) => True
      | (s, .goOn) => Untimed ts s

/-! ## 2. One turn -/

theorem ptyTurn_keeps (t : Turn) (s : Session) :
    (ptyTurn t s).1.input = s.input ∧ (ptyTurn t s).1.typed = s.typed ∧
      (ptyTurn t s).1.sizes = s.sizes := by
  rw [ptyTurn]
  split
  · split
    · split <;> exact ⟨rfl, rfl, rfl⟩
    · exact ⟨rfl, rfl, rfl⟩
    · exact ⟨rfl, rfl, rfl⟩
  · exact ⟨rfl, rfl, rfl⟩

theorem restOfTurn_keeps (t : Turn) (s : Session) :
    (restOfTurn t s).1.input = s.input ∧ (restOfTurn t s).1.typed = s.typed ∧
      (restOfTurn t s).1.sizes = s.sizes := by
  rw [restOfTurn]
  split
  · exact ⟨rfl, rfl, rfl⟩
  · exact ptyTurn_keeps t s

theorem turn_late {t : Turn} {s : Session} (h : ¬ (t.now < s.maxd ∧ t.now < s.idle)) :
    turn t s = (s, .stop) := by
  rw [turn]
  split
  · rfl
  · rw [if_pos (by omega)]

theorem turn_unreadable {t : Turn} (ht : t.readable = false) (s : Session) :
    (turn t s).1.input = s.input ∧ (turn t s).1.typed = s.typed ∧
      (turn t s).1.sizes = s.sizes := by
  rw [turn]
  split
  · exact ⟨rfl, rfl, rfl⟩
  split
  · exact ⟨rfl, rfl, rfl⟩
  split
  · exact ⟨rfl, rfl, rfl⟩
  · exact ⟨rfl, rfl, rfl⟩
  · exact ⟨rfl, rfl, rfl⟩
  · next hpoll =>
    have hsock : ¬ t.sock.ready = true := by
      intro hready
      rw [Turn.readable, hpoll, hready] at ht
      exact absurd ht (by decide)
    rw [if_neg hsock]
    exact restOfTurn_keeps t s

theorem message_typed {t : Turn} (ht : t.PtyAccepts) {f : ClientFrame} (hop : f.opcode ≠ 0x8)
    (s : Session) : (message t f.opcode f.payload s).1.input = s.input ∧
      (message t f.opcode f.payload s).1.typed = s.typed ++ f.typed := by
  rw [message, if_neg hop]
  by_cases hping : f.opcode = 0x9
  · have htyped : f.typed = [] := by
      rw [ClientFrame.typed, hping]
      rfl
    rw [if_pos hping, htyped, List.append_nil]
    exact ⟨rfl, rfl⟩
  rw [if_neg hping]
  by_cases hnil : f.payload = []
  · have htyped : f.typed = [] := by
      rw [ClientFrame.typed, hnil]
      split
      · rfl
      · split <;> rfl
    simp only [hnil, ne_eq, not_true_eq_false, and_false, if_false]
    rw [htyped, List.append_nil]
    exact ⟨(restOfTurn_keeps t s).1, (restOfTurn_keeps t s).2.1⟩
  simp only [ne_eq, hnil, not_false_eq_true, and_true]
  rw [ClientFrame.typed]
  by_cases hresize : f.opcode = 0x1 ∧ (resizeTo f.payload).isSome
  · obtain ⟨size, hsize⟩ := Option.isSome_iff_exists.mp hresize.2
    rw [if_pos hresize, if_pos hresize.1, hsize, List.append_nil]
    exact ⟨rfl, rfl⟩
  · have hnone : (if f.opcode = 0x1 then resizeTo f.payload else none) = none := by
      split
      · next hone =>
        rw [Option.eq_none_iff_forall_ne_some]
        exact fun size hsize => hresize ⟨hone, by rw [hsize]; rfl⟩
      · rfl
    rw [hnone, if_neg hresize]
    -- typed, or an opcode that the loop does not know
    by_cases htext : f.opcode = 0x1 ∨ f.opcode = 0x2
    · have hall := writeAll_ok (writeAll_of_not_fails f.payload ht).1
      simp only [if_pos htext, hall]
      exact ⟨(restOfTurn_keeps t _).1, (restOfTurn_keeps t _).2.1⟩
    · simp only [if_neg htext, List.append_nil]
      exact ⟨(restOfTurn_keeps t s).1, (restOfTurn_keeps t s).2.1⟩

/-- A readable turn before any timeout is the reading of a message. -/
theorem turn_readable {t : Turn} (ht : t.readable = true) {s : Session} (hmax : t.now < s.maxd)
    (hidle : t.now < s.idle) :
    turn t s = match wsReadMsg ioSize s.input with
      | (none, input) => ({ s with input := input }, .stop)
      | (some (op, pay), input) => message t op pay { s with input := input } := by
  simp only [Turn.readable, Bool.and_eq_true, decide_eq_true_eq] at ht
  rw [turn, if_neg (Nat.not_le.mpr hmax), if_neg (Nat.not_le.mpr hidle), ht.1]
  exact if_pos ht.2

/-! ## 3. A run -/

theorem recvExactLoop_closed {rs : List Recv} {s : List UInt8} (h : Arrives rs s) (hs : s = [])
    {n : Nat} {got : List UInt8} (hgot : got.length < n) : (recvExactLoop n got rs).1 = none := by
  induction h with
  | nil => rw [recvExactLoop, if_pos hgot]
  | data hbs _ _ => exact absurd (List.append_eq_nil_iff.mp hs).1 hbs
  | intr _ ih =>
    rw [recvExactLoop, if_pos hgot]
    exact ih hs

/-- When the client has sent everything, reading finds the end. -/
theorem wsReadMsg_closed {rs : List Recv} (h : Arrives rs []) (cap : Nat) :
    ∃ rs', wsReadMsg cap rs = (none, rs') := by
  have hnone : (recvExactLoop 2 [] rs).1 = none := recvExactLoop_closed h rfl (by decide)
  rw [wsReadMsg, recvExact]
  rcases hrun : recvExactLoop 2 [] rs with ⟨_ | hdr, rs'⟩
  · exact ⟨rs', rfl⟩
  · rw [hrun] at hnone
    cases hnone

/-- As many frames are typed as there are readable turns. -/
theorem loop_typed (fs : List ClientFrame) (ts : List Turn) (s : Session)
    (hinput : Arrives s.input (fs.flatMap ClientFrame.bytes))
    (hfs : ∀ f ∈ fs, f.payload.length ≤ ioSize) (huntimed : Untimed ts s)
    (hpty : ∀ t ∈ ts, t.PtyAccepts) :
    (loop ts s).typed =
      s.typed ++ typedBefore (fs.take ((executed ts s).countP Turn.readable)) := by
  induction ts generalizing fs s with
  | nil => rw [loop, executed, List.countP_nil, List.take_zero]; exact (List.append_nil _).symm
  | cons t ts ih =>
    obtain ⟨hmax, hidle, hrest⟩ := huntimed
    have hpty' : ∀ t ∈ ts, t.PtyAccepts := fun t ht => hpty t (List.mem_cons_of_mem _ ht)
    rw [loop, executed]
    cases ht : t.readable with
    | false =>
      -- a turn that reads nothing leaves the frames where they are
      obtain ⟨hsame, htyped, -⟩ := turn_unreadable ht s
      rcases hturn : turn t s with ⟨s', _ | _⟩
      · rw [hturn] at hsame htyped hrest
        simp only at hsame htyped hrest ⊢
        rw [ih fs s' (hsame ▸ hinput) hfs hrest hpty', List.countP_cons, ht, htyped]
        simp only [Bool.false_eq_true, if_false, Nat.add_zero]
      · rw [hturn] at htyped
        simp only [List.countP_cons, List.countP_nil, ht, Bool.false_eq_true, if_false,
          Nat.add_zero, List.take_zero]
        exact htyped.trans (List.append_nil _).symm
    | true =>
      rw [turn_readable ht hmax hidle] at hrest ⊢
      cases fs with
      | nil =>
        -- nothing is left to read, so the loop ends
        obtain ⟨rs, hclosed⟩ := wsReadMsg_closed hinput ioSize
        rw [hclosed, List.take_nil]
        exact (List.append_nil _).symm
      | cons f fs =>
        -- the turn reads the first frame; the others are still to arrive
        obtain ⟨rs, hread, harrives⟩ := wsReadMsg_arrives hinput (hfs f List.mem_cons_self)
        rw [hread] at hrest ⊢
        by_cases hop : f.opcode = 0x8
        · simp only [hop, message, if_true, List.countP_cons, List.countP_nil, ht, Nat.zero_add,
            List.take_succ_cons, typedBefore_cons, List.append_nil]
        · obtain ⟨hsame, htyped⟩ :=
            message_typed (hpty t List.mem_cons_self) hop { s with input := rs }
          rcases hmsg : message t f.opcode f.payload { s with input := rs } with ⟨s', _ | _⟩
          · rw [hmsg] at hsame htyped
            simp only [hmsg] at hsame htyped hrest ⊢
            rw [ih fs s' (hsame ▸ harrives) (fun f hf => hfs f (List.mem_cons_of_mem _ hf)) hrest
              hpty', List.countP_cons, ht, if_pos rfl, List.take_succ_cons, typedBefore_cons,
              if_neg hop, htyped, List.append_assoc]
          · rw [hmsg] at htyped
            simp only [hmsg, List.countP_cons, List.countP_nil, ht, if_true, Nat.zero_add,
              List.take_succ_cons, List.take_zero, typedBefore_cons, if_neg hop]
            exact htyped.trans (by rw [show typedBefore [] = [] from rfl, List.append_nil])

/-! ## 4. From the request on -/

/-- A request for the upgrade that `wssh` accepts, up to the end of its header. -/
structure UpgradeRequest where
  text : List UInt8
  key : List UInt8
  ends : headEnd text = some text.length
  length_le : text.length ≤ headMax
  valid : handshakeKey text = some key

/-- When no chunk holds both the end of the request and what follows it, the session starts with all
that follows. -/
theorem mainUpgrade_arrives (req : UpgradeRequest) {rs rs' : List Recv} {s : List UInt8}
    (hreq : Arrives rs req.text) (hrest : Arrives rs' s) {writes : List Write}
    (hwrites : ∀ w ∈ writes, ¬ w.Fails) :
    ∃ sent input, mainUpgrade (fun _ => false) (rs ++ rs') writes = some (sent, some input) ∧
      Arrives input s := by
  obtain ⟨later, hread, hlater⟩ := readHeaders_arrives hreq rs' req.length_le req.ends
  have hok := wsHandshake_ok req.valid hwrites
  rw [mainUpgrade, hread]
  simp only [Int.toNat_natCast, List.take_length, if_pos (wantsUpgrade_of_key req.valid)]
  rw [if_neg (Int.not_lt.mpr (Int.natCast_nonneg _))]
  rcases hshake : wsHandshake req.text writes with ⟨_ | _, sent⟩
  · rw [hshake] at hok
    cases hok
  · exact ⟨sent, _, rfl, hlater.append hrest⟩

/-- The frames of a client reach the terminal, one in each turn that finds something to read. -/
theorem upgrade_typed (req : UpgradeRequest) (fs : List ClientFrame)
    (hfs : ∀ f ∈ fs, f.payload.length ≤ ioSize) {rs rs' : List Recv} (hreq : Arrives rs req.text)
    (hframes : Arrives rs' (fs.flatMap ClientFrame.bytes)) {writes : List Write}
    (hwrites : ∀ w ∈ writes, ¬ w.Fails) :
    ∃ sent input, mainUpgrade (fun _ => false) (rs ++ rs') writes = some (sent, some input) ∧
      ∀ (start : Nat) (ts : List Turn), Untimed ts (.begin input start) →
        (∀ t ∈ ts, t.PtyAccepts) →
        (wsSession input start ts).typed =
          typedBefore (fs.take ((executed ts (.begin input start)).countP Turn.readable)) := by
  obtain ⟨sent, input, hmain, hinput⟩ := mainUpgrade_arrives req hreq hframes hwrites
  refine ⟨sent, input, hmain, fun start ts huntimed hpty => ?_⟩
  exact (loop_typed fs ts _ hinput hfs huntimed hpty).trans (List.nil_append _)

/-- The request of a browser. -/
def browserRequest : UpgradeRequest where
  text := bytes "GET / HTTP/1.1\r\nUpgrade: websocket\r\nConnection: Upgrade\r\nSec-WebSocket-Key: dGhlIHNhbXBsZSBub25jZQ==\r\n\r\n"
  key := bytes "dGhlIHNhbXBsZSBub25jZQ=="
  ends := by decide +kernel
  length_le := by decide +kernel
  valid := by decide +kernel

theorem browserRequest_arrives : Arrives [.data browserRequest.text] browserRequest.text :=
  arrives_whole (by decide +kernel)

/-- A turn at the time 0 that finds something from the client. -/
def clientTurn : Turn := ⟨.ready, 0, ⟨true, false⟩, ⟨false, false⟩, .again, [], []⟩

def dataFrame (fin : Bool) (opcode : UInt8) (h : opcode < 16) (b : UInt8) : ClientFrame :=
  ⟨fin, opcode, [1, 2, 3, 4], [b], h, rfl, Nat.one_lt_two_pow (by decide)⟩

theorem clientTurn_untimed (input : List Recv) : clientTurn.now < (Session.begin input 0).maxd ∧
    clientTurn.now < (Session.begin input 0).idle :=
  ⟨Nat.zero_lt_succ _, Nat.zero_lt_succ _⟩

/-- A key that is pressed in the first turn. -/
theorem upgrade_typed_key :
    ∃ sent input, mainUpgrade (fun _ => false) ([.data browserRequest.text] ++
      [.intr, .data (dataFrame true 2 (by decide) 0x61).bytes]) [.took 3] =
        some (sent, some input) ∧
      (wsSession input 0 [clientTurn]).typed = [0x61] := by
  have hframe := Arrives.intr (arrives_whole (s := (dataFrame true 2 (by decide) 0x61).bytes)
    (List.cons_ne_nil _ _))
  have hwrites : ∀ w ∈ [Write.took 3], ¬ w.Fails := by
    intro w hw
    obtain rfl := List.mem_singleton.mp hw
    rintro (⟨⟨⟩⟩ | ⟨⟨⟩⟩)
  obtain ⟨sent, input, hmain, hruns⟩ := upgrade_typed browserRequest
    [dataFrame true 2 (by decide) 0x61] (by decide) browserRequest_arrives hframe hwrites
  refine ⟨sent, input, hmain, (hruns 0 [clientTurn] ?_ ?_).trans ?_⟩
  · refine ⟨(clientTurn_untimed input).1, (clientTurn_untimed input).2, ?_⟩
    split <;> trivial
  · intro t ht
    obtain rfl := List.mem_singleton.mp ht
    exact nofun
  · rw [executed]
    split <;> rfl

/-! ## 5. Messages in fragments -/

/-- The text and binary messages in a stream of frames, of which `part` has begun. -/
def messages (part : Option (UInt8 × List UInt8)) : List ClientFrame → List (UInt8 × List UInt8)
  | [] => []
  | f :: fs =>
    if f.opcode ≥ 0x8 then messages part fs
    else
      let whole := match part with
        | some (op, pay) => (op, pay ++ f.payload)
        | none => (f.opcode, f.payload)
      if f.fin then whole :: messages none fs else messages (some whole) fs

/-- What a message is to type. -/
def messageTyped (m : UInt8 × List UInt8) : List UInt8 :=
  if m.1 = 0x1 ∧ (resizeTo m.2).isSome then [] else m.2

/-- A message of two letters in two fragments, of which only the first is typed. -/
theorem not_upgrade_typed_fragments :
    ¬ ∀ (req : UpgradeRequest) (fs : List ClientFrame), (∀ f ∈ fs, f.payload.length ≤ ioSize) →
      ∀ rs, Arrives rs (req.text ++ fs.flatMap ClientFrame.bytes) →
        ∃ sent input, mainUpgrade (fun _ => false) rs [] = some (sent, some input) ∧
          ∀ (start : Nat) (ts : List Turn), Untimed ts (.begin input start) →
            (∀ t ∈ ts, t.PtyAccepts) →
            (executed ts (.begin input start)).countP Turn.readable = fs.length →
            (wsSession input start ts).typed =
              (messages none (fs.takeWhile (·.opcode ≠ 0x8))).flatMap messageTyped := by
  intro h
  let f := dataFrame false 1 (by decide) 0x61
  let g := dataFrame true 0 (by decide) 0x62
  have hfs : ∀ f' ∈ [f, g], f'.payload.length ≤ ioSize := by decide
  have hframes := arrives_whole (s := [f, g].flatMap ClientFrame.bytes) (List.cons_ne_nil _ _)
  obtain ⟨sent, input, hmain, hinput⟩ := mainUpgrade_arrives browserRequest
    browserRequest_arrives hframes
    (fun _ hw => absurd hw List.not_mem_nil)
  obtain ⟨sent', input', hmain', hruns⟩ := h browserRequest [f, g] hfs _
    (browserRequest_arrives.append hframes)
  obtain ⟨rfl, rfl⟩ : sent' = sent ∧ input' = input := by
    rw [hmain] at hmain'
    cases hmain'
    exact ⟨rfl, rfl⟩
  -- both turns are executed, since the first frame does not end the session
  obtain ⟨rs, hread, -⟩ := wsReadMsg_arrives (f := f) (s := g.bytes ++ []) hinput
    (hfs f List.mem_cons_self)
  have hturn : turn clientTurn (.begin input' 0) =
      ({ Session.begin rs 0 with typed := [0x61] }, .goOn) := by
    rw [turn_readable rfl (clientTurn_untimed input').1 (clientTurn_untimed input').2,
      show (Session.begin input' 0).input = input' from rfl, hread]
    rfl
  have hpty : ∀ t ∈ [clientTurn, clientTurn], t.PtyAccepts := by
    intro t ht
    obtain rfl : t = clientTurn := by simpa using ht
    exact nofun
  have huntimed : Untimed [clientTurn, clientTurn] (.begin input' 0) := by
    refine ⟨(clientTurn_untimed input').1, (clientTurn_untimed input').2, ?_⟩
    rw [hturn]
    refine ⟨(clientTurn_untimed rs).1, (clientTurn_untimed rs).2, ?_⟩
    split <;> trivial
  have hcount : (executed [clientTurn, clientTurn] (.begin input' 0)).countP Turn.readable = 2 := by
    rw [executed, hturn]
    simp only [executed]
    split <;> rfl
  have hwanted := hruns 0 _ huntimed hpty hcount
  have htyped := loop_typed [f, g] _ _ hinput hfs huntimed hpty
  rw [hcount, show (Session.begin input' 0).typed = [] from rfl] at htyped
  exact absurd (hwanted.symm.trans htyped) (by decide)

end Wssh
