import ZteWifi.Net.Headers
import ZteWifi.Wssh.Frames

/-!
# A terminal session

`ws_session` of `wssh.c`, turn by turn of its poll loop, and the branch of `main` that leads there.
A turn is given with everything its system calls return in it; only what the client has sent goes
on from one turn to the next.
-/

open Ascii Net

namespace Wssh

/-! ## 1. Window sizes -/

/-- `LONG_MAX` of the target. -/
@[simp] abbrev longMax : Nat := 2147483647

/-- The decimal number of `strtol`, which does not go beyond `LONG_MAX`. -/
def strtol (digits : List UInt8) : Nat :=
  min longMax (digits.foldl (fun v c => v * 10 + (c.toNat - 0x30)) 0)

/-- `json_num`: the first number above 0 that stands behind `key`; `none` is the result `-1`. -/
def jsonNum (key : List UInt8) : List UInt8 → Option Nat
  | [] => none
  | c :: s =>
    if key <+: c :: s then
      let digits := ((((c :: s).drop key.length).dropWhile fun c => c = space ∨ c = 0x09).takeWhile
        isdigit).take 31
      -- a number that is not positive sends the search on behind the key
      if digits ≠ [] ∧ strtol digits > 0 then some (strtol digits) else jsonNum key s
    else jsonNum key s

/-- The size that a text frame asks for. -/
def resizeTo (pay : List UInt8) : Option (Nat × Nat) :=
  if pay.head? = some lbrace then
    match jsonNum (bytes "\"cols\":") pay, jsonNum (bytes "\"rows\":") pay with
    | some cols, some rows =>
      if cols < 500 ∧ rows < 500 ∧ ciHasN pay (bytes "\"type\":\"resize\"") then some (cols, rows)
      else none
    | _, _ => none
  else none

/-! ## 2. The poll loop -/

/-- `SESSION_IDLE_SEC` -/
@[simp] abbrev sessionIdleSec : Nat := 300

/-- `SESSION_MAX_SEC` -/
@[simp] abbrev sessionMaxSec : Nat := 1800

/-- The size of `iobuf`. -/
@[simp] abbrev ioSize : Nat := 16384

inductive PollRet
  | ready | timeout | intr | error
  deriving DecidableEq, Repr

/-- The result of reading from the terminal: bytes (none of them at its end), `EAGAIN`, or another
error. -/
inductive PtyRead
  | data (bs : List UInt8)
  | again
  | error
  deriving DecidableEq, Repr

/-- `POLLIN`, and `POLLHUP` or `POLLERR`. -/
structure Revents where
  ready : Bool
  hup : Bool
  deriving DecidableEq, Repr

/-- What the system calls of one turn return. -/
structure Turn where
  poll : PollRet
  now : Nat
  sock : Revents
  pty : Revents
  read : PtyRead
  writes : List Write
  ptyWrites : List Write
  deriving DecidableEq, Repr

structure Session where
  input : List Recv
  /-- What has been put on the client's socket. -/
  sent : List UInt8
  /-- What has been written to the terminal. -/
  typed : List UInt8
  /-- The sizes that have been set on it. -/
  sizes : List (Nat × Nat)
  idle : Nat
  maxd : Nat
  deriving DecidableEq, Repr

/-- Whether the loop goes on. -/
inductive Next
  | goOn | stop
  deriving DecidableEq, Repr

/-- The part of a turn that deals with the terminal. -/
def ptyTurn (t : Turn) (s : Session) : Session × Next :=
  let hup := if t.pty.hup then Next.stop else .goOn
  if t.pty.ready then
    match t.read with
    | .data bs =>
      if bs = [] then (s, .stop)
      else
        let (_, sent, _) := wsSend 0x82 (bs.take ioSize) t.writes
        ({ s with sent := s.sent ++ sent, idle := t.now + sessionIdleSec }, hup)
    | .again => (s, hup)
    | .error => (s, .stop)
  else (s, hup)

/-- What follows the part of a turn that deals with the client. -/
def restOfTurn (t : Turn) (s : Session) : Session × Next :=
  if t.sock.hup then (s, .stop) else ptyTurn t s

/-- A message of the client. -/
def message (t : Turn) (op : UInt8) (pay : List UInt8) (s : Session) : Session × Next :=
  if op = 0x8 then
    let (_, sent, _) := wsSend 0x88 [] t.writes
    ({ s with sent := s.sent ++ sent }, .stop)
  else if op = 0x9 then
    -- the rest of the turn is skipped (`continue`)
    let (_, sent, _) := wsSend 0x8A pay t.writes
    ({ s with sent := s.sent ++ sent, idle := t.now + sessionIdleSec }, .goOn)
  else
    -- a text frame that sets the size is not typed; any other one is
    match if op = 0x1 ∧ pay ≠ [] then resizeTo pay else none with
    | some size =>
      ({ s with sizes := s.sizes ++ [size], idle := t.now + sessionIdleSec }, .goOn)
    | none =>
      if (op = 0x1 ∨ op = 0x2) ∧ pay ≠ [] then
        -- what the terminal does not take is lost, but the session goes on
        let (_, typed, _) := writeAll pay t.ptyWrites
        restOfTurn t { s with typed := s.typed ++ typed, idle := t.now + sessionIdleSec }
      else restOfTurn t s

/-- One turn of the loop of `ws_session`. -/
def turn (t : Turn) (s : Session) : Session × Next :=
  if t.now ≥ s.maxd then (s, .stop)
  else if t.now ≥ s.idle then (s, .stop)
  else
    match t.poll with
    | .error => (s, .stop)
    | .intr | .timeout => (s, .goOn)
    | .ready =>
      if t.sock.ready then
        match wsReadMsg ioSize s.input with
        | (none, input) => ({ s with input := input }, .stop)
        | (some (op, pay), input) => message t op pay { s with input := input }
      else restOfTurn t s

/-- The state after these turns, or after the one that ended the loop. -/
def loop : List Turn → Session → Session
  | [], s => s
  | t :: ts, s =>
    match turn t s with
    | (s, .stop) => s
    | (s, .goOn) => loop ts s

/-- `ws_session` starts at the time `start`. -/
def Session.begin (input : List Recv) (start : Nat) : Session :=
  ⟨input, [], [], [], start + sessionIdleSec, start + sessionMaxSec⟩

def wsSession (input : List Recv) (start : Nat) (ts : List Turn) : Session :=
  loop ts (.begin input start)

/-! ## 3. The branch of `main` -/

/-- A connection that asks for the upgrade: what is put on the socket for the handshake, and what
`ws_session` has to read, if it comes to that.  The bytes of `hbuf` behind the header are not looked
at again. -/
def mainUpgrade (late : Nat → Bool) (rs : List Recv) (writes : List Write) :
    Option (List UInt8 × Option (List Recv)) :=
  let head := readHeaders late rs
  if head.ret < 0 then none
  else
    let p := head.buf.take head.ret.toNat
    if wantsUpgrade p then
      -- what `hbuf` holds behind the header is dropped
      match wsHandshake p writes with
      | (false, sent) => some (sent, none)
      | (true, sent) => some (sent, some head.later)
    else none

end Wssh
