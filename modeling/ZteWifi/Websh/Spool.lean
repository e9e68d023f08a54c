import ZteWifi.Net.Headers

/-!
# The script that is run

The child of `websh.c` that answers a POST request: it puts the body into a temporary file, makes
that its standard input and becomes the shell.  Descriptors 0 to 2 are those the server has been
started with, so the client's socket and the file have others.
-/

open Ascii Net

namespace Websh

/-! ## 1. The temporary file -/

/-- The file of `mkstemp`, and where its descriptor stands. -/
structure TmpFile where
  contents : List UInt8
  offset : Nat
  unlinked : Bool
  deriving DecidableEq, Repr

def TmpFile.empty : TmpFile := ⟨[], 0, false⟩

/-- Bytes written where the descriptor stands. -/
def TmpFile.put (f : TmpFile) (bs : List UInt8) : TmpFile :=
  { f with
    contents := f.contents.take f.offset ++ bs ++ f.contents.drop (f.offset + bs.length)
    offset := f.offset + bs.length }

def TmpFile.unlink (f : TmpFile) : TmpFile := { f with unlinked := true }

def TmpFile.rewind (f : TmpFile) : TmpFile := { f with offset := 0 }

/-- `write_all` on the file. -/
def TmpFile.writeAll (f : TmpFile) (bs : List UInt8) (ws : List Write) :
    Bool × TmpFile × List Write :=
  let (ok, taken, ws) := Net.writeAll bs ws
  (ok, f.put taken, ws)

/-! ## 2. The child -/

/-- The size of `iobuf`. -/
@[simp] abbrev ioSize : Nat := 4096

/-- `OK_HDR` -/
def okHdr : List UInt8 :=
  bytes "HTTP/1.1 200 OK\r\nServer: websh\r\nCache-Control: no-store\r\nContent-Type: text/plain; charset=utf-8\r\nX-Content-Type-Options: nosniff\r\nConnection: close\r\n\r\n"

/-- What the system calls of the child return; `late i` tells whether the deadline has passed at the
`i`-th turn of its loop. -/
structure Calls where
  mkstemp : Bool
  writes : List Write
  late : Nat → Bool
  lseek : Bool
  /-- The three calls in the order of the source. -/
  dup2 : Bool × Bool × Bool
  setsid : Bool
  chdir : Bool
  replies : List Write
  execve : Bool

/-- How the child ends: with an exit status and the file, if there is one, or as the shell that reads
the file. -/
inductive Outcome
  | exited (status : Nat) (tmp : Option TmpFile)
  | became (stdin : TmpFile)
  deriving DecidableEq, Repr

/-- The loop that receives the body, of which `got` bytes are in the file; an error is the status
with which the child exits. -/
def spoolLoop (late : Nat → Bool) (clen i got : Nat) (f : TmpFile) (ws : List Write)
    (rs : List Recv) : Except (Nat × TmpFile) TmpFile :=
  if got < clen then
    if late i then .error (0, f.unlink)
    else
      match rs with
      | [] => .error (0, f.unlink)
      | .error :: _ => .error (0, f.unlink)
      | .intr :: later => spoolLoop late clen (i + 1) got f ws later
      | .data bs :: later =>
        if bs = [] then .error (0, f.unlink)
        else
          let cap := min (clen - got) ioSize
          -- not more than the rest of the body is taken from the socket
          match f.writeAll (bs.take cap) ws with
          | (false, f, _) => .error (124, f.unlink)
          | (true, f, ws) =>
            spoolLoop late clen (i + 1) (got + (bs.take cap).length) f ws (unread cap bs later)
  else .ok f
termination_by pending rs
decreasing_by
  · exact pending_intr later
  · have hcap : 0 < min (clen - got) ioSize := Nat.lt_min.mpr ⟨by omega, by decide⟩
    exact pending_unread hcap ‹_› later

/-- The new file gets the first `n` bytes of what `hbuf` holds behind the header. -/
def putFront (rest : List UInt8) (n : Nat) (ws : List Write) : Bool × TmpFile × List Write :=
  if n > 0 then TmpFile.empty.writeAll (rest.take n) ws else (true, TmpFile.empty, ws)

/-- The body goes into the file: what `hbuf` holds of it, and the rest from the socket. -/
def spool (c : Calls) (head : Head) (clen : Nat) : Except (Nat × TmpFile) TmpFile :=
  let rest := head.buf.drop head.ret.toNat
  let got := min rest.length clen
  match putFront rest got c.writes with
  | (false, f, _) => .error (124, f.unlink)
  | (true, f, ws) => spoolLoop c.late clen 0 got f ws head.later

/-- From the complete body on. -/
def runScript (c : Calls) (f : TmpFile) : Outcome :=
  if ¬ c.lseek then .exited 124 f.unlink
  -- a call that fails ends the child before the shell is started
  else if ¬ (c.dup2.1 ∧ c.dup2.2.1 ∧ c.dup2.2.2) then .exited 126 f.rewind.unlink
  else
    let f := f.rewind.unlink
    if ¬ c.setsid then .exited 125 f
    else if ¬ c.chdir then .exited 128 f
    else if ¬ (writeAll okHdr c.replies).1 then .exited 0 f
    else if c.execve then .became f
    else .exited 127 f

/-- The child of a POST request whose header has been read, for a body of `clen` bytes. -/
def postChild (c : Calls) (head : Head) (clen : Nat) : Outcome :=
  if c.mkstemp then
    match spool c head clen with
    | .error (status, f) => .exited status f
    | .ok f => runScript c f
  else .exited 124 none

/-! ## 3. The file holds the body -/

/-- The first `n` bytes have been written, and nothing else. -/
structure TmpFile.Filled (f : TmpFile) (n : Nat) : Prop where
  length_eq : f.contents.length = n
  offset_eq : f.offset = n

theorem TmpFile.put_contents {f : TmpFile} {n : Nat} (h : f.Filled n) (bs : List UInt8) :
    (f.put bs).contents = f.contents ++ bs := by
  have hnone : f.contents.drop (f.offset + bs.length) = [] := by
    apply List.drop_of_length_le
    rw [h.length_eq, h.offset_eq]
    omega
  have hall : f.contents.take f.offset = f.contents := by
    apply List.take_of_length_le
    rw [h.length_eq, h.offset_eq]
  unfold put
  rw [hnone, hall, List.append_nil]

theorem TmpFile.Filled.put {f : TmpFile} {n : Nat} (h : f.Filled n) (bs : List UInt8) :
    (f.put bs).Filled (n + bs.length) where
  length_eq := by rw [put_contents h, List.length_append, h.length_eq]
  offset_eq := by rw [TmpFile.put, h.offset_eq]

theorem TmpFile.writeAll_ok {f f' : TmpFile} {n : Nat} (h : f.Filled n) {bs : List UInt8}
    {ws ws' : List Write} (hrun : f.writeAll bs ws = (true, f', ws')) :
    f'.contents = f.contents ++ bs ∧ f'.Filled (n + bs.length) := by
  have hall := @Net.writeAll_ok bs ws
  unfold writeAll at hrun
  rcases hw : Net.writeAll bs ws with ⟨ok, taken, ws''⟩
  rw [hw] at hrun hall
  cases hrun
  obtain rfl : taken = bs := hall rfl
  exact ⟨put_contents h taken, h.put taken⟩

/-- What the loop leaves: the first `clen` bytes of what it has found and received, or a file that is
gone. -/
theorem spoolLoop_spec (late : Nat → Bool) (clen i got : Nat) (f : TmpFile) (ws : List Write)
    (rs : List Recv) (hf : f.Filled got) (hgot : got ≤ clen) :
    match spoolLoop late clen i got f ws rs with
    | .ok f' => f'.contents = (f.contents ++ received rs).take clen ∧ f'.Filled clen
    | .error (_, f') => f'.unlinked = true := by
  fun_induction spoolLoop late clen i got f ws rs with
  | case1 i got f ws rs hlt hlate => rfl
  | case2 i got f ws hlt hlate => rfl
  | case3 i got f ws hlt hlate rs => rfl
  | case4 i got f ws hlt hlate later ih =>
    rw [received_intr]
    exact ih hf hgot
  | case5 i got f ws hlt hlate later => rfl
  | case6 i got f ws hlt hlate later bs hbs cap f' ws' hrun => rfl
  | case7 i got f ws hlt hlate bs later hbs cap f' ws' hrun ih =>
    obtain ⟨hcontents, hfilled⟩ := TmpFile.writeAll_ok hf hrun
    have hroom : got + (bs.take cap).length ≤ clen := by
      rw [List.length_take]
      omega
    have hstream : f'.contents ++ received (unread cap bs later) =
        f.contents ++ received (.data bs :: later) := by
      rw [hcontents, List.append_assoc, received_unread, received_data]
    rw [hstream] at ih
    exact ih hfilled hroom
  | case8 i got f ws rs hge =>
    obtain rfl : got = clen := by omega
    refine ⟨?_, hf⟩
    rw [List.take_append_of_le_length (Nat.le_of_eq hf.length_eq.symm),
      List.take_of_length_le (Nat.le_of_eq hf.length_eq)]

theorem putFront_ok {rest : List UInt8} {n : Nat} (hn : n ≤ rest.length) {f : TmpFile}
    {ws ws' : List Write} (hrun : putFront rest n ws = (true, f, ws')) :
    f.contents = rest.take n ∧ f.Filled n := by
  have hempty : TmpFile.empty.Filled 0 := ⟨rfl, rfl⟩
  unfold putFront at hrun
  split at hrun
  · obtain ⟨hcontents, hfilled⟩ := TmpFile.writeAll_ok hempty hrun
    rw [List.length_take, Nat.zero_add, Nat.min_eq_left hn] at hfilled
    exact ⟨hcontents, hfilled⟩
  · cases hrun
    obtain rfl : n = 0 := by omega
    exact ⟨rfl, hempty⟩

/-- Bytes that are cut before others are appended to them are cut in the end. -/
theorem take_min_append (rest s : List UInt8) (n : Nat) :
    (rest.take (min rest.length n) ++ s).take n = (rest ++ s).take n := by
  by_cases hle : rest.length ≤ n
  · rw [Nat.min_eq_left hle, List.take_length]
  · have hlen : (rest.take n).length = n := by
      rw [List.length_take]
      omega
    rw [Nat.min_eq_right (by omega), List.take_append_of_le_length (Nat.le_of_eq hlen.symm),
      List.take_take, Nat.min_self, List.take_append_of_le_length (by omega)]

theorem spool_spec (c : Calls) (head : Head) (clen : Nat) :
    match spool c head clen with
    | .ok f => f.contents = (head.buf.drop head.ret.toNat ++ received head.later).take clen ∧
        f.Filled clen
    | .error (_, f) => f.unlinked = true := by
  unfold spool
  generalize head.buf.drop head.ret.toNat = rest
  simp only
  rcases hrun : putFront rest (min rest.length clen) c.writes with ⟨_ | _, f, ws⟩
  · rfl
  · obtain ⟨hcontents, hfilled⟩ := putFront_ok (Nat.min_le_left _ _) hrun
    have hloop := spoolLoop_spec c.late clen 0 _ f ws head.later hfilled (Nat.min_le_right _ _)
    rw [hcontents, take_min_append] at hloop
    exact hloop

/-! ## 4. The script or nothing -/

/-- The shell reads this script from its beginning, or there is no shell; and the file is gone if
there has been one. -/
def Outcome.RunsOnly (c : Calls) (script : List UInt8) : Outcome → Prop
  | .exited _ none => c.mkstemp = false
  | .exited _ (some f) => f.unlinked = true
  | .became f => f.contents = script ∧ f.offset = 0 ∧ f.unlinked = true

instance (c : Calls) (script : List UInt8) : (o : Outcome) → Decidable (o.RunsOnly c script)
  | .exited _ none => inferInstanceAs (Decidable (_ = _))
  | .exited _ (some _) => inferInstanceAs (Decidable (_ = _))
  | .became _ => inferInstanceAs (Decidable (_ ∧ _ ∧ _))

theorem runScript_runsOnly (c : Calls) (f : TmpFile) : (runScript c f).RunsOnly c f.contents := by
  unfold runScript
  split
  · rfl
  split
  · rfl
  split
  · rfl
  split
  · rfl
  split
  · rfl
  split
  · exact ⟨rfl, rfl, rfl⟩
  · rfl

/-- The child of a POST request runs the `clen` bytes of the stream behind the header, or nothing. -/
theorem postChild_runsOnly (c : Calls) (late : Nat → Bool) (rs : List Recv) (clen : Nat)
    (hret : 0 ≤ (readHeaders late rs).ret) :
    (postChild c (readHeaders late rs) clen).RunsOnly c
        (((received rs).drop (readHeaders late rs).ret.toNat).take clen) ∧
      ∀ f, postChild c (readHeaders late rs) clen = .became f → f.contents.length = clen := by
  obtain ⟨hle, hstream⟩ := readHeaders_received hret
  generalize readHeaders late rs = head at hle hstream
  have hbody : (received rs).drop head.ret.toNat =
      head.buf.drop head.ret.toNat ++ received head.later := by
    rw [← hstream, List.drop_append_of_le_length hle]
  have hspool := spool_spec c head clen
  rw [hbody]
  unfold postChild
  by_cases hmk : c.mkstemp = true
  · rw [if_pos hmk]
    rcases hrun : spool c head clen with ⟨status, f⟩ | f
    · rw [hrun] at hspool
      exact ⟨hspool, fun f h => by cases h⟩
    · rw [hrun] at hspool
      obtain ⟨hcontents, hfilled⟩ := hspool
      have hruns := runScript_runsOnly c f
      rw [hcontents] at hruns
      refine ⟨hruns, fun g hg => ?_⟩
      rw [show runScript c f = .became g from hg] at hruns
      rw [hruns.1, ← hcontents, hfilled.length_eq]
  · rw [if_neg hmk]
    exact ⟨Bool.eq_false_iff.mpr hmk, fun f h => by cases h⟩

/-- Nothing fails in the child. -/
def smooth (writes : List Write) : Calls :=
  ⟨true, writes, fun _ => false, true, (true, true, true), true, true, [], true⟩

/-- A script of which two bytes come with the header and the last two in a chunk with a byte more. -/
def splitScript : List Recv :=
  [.data (bytes "POST / HTTP/1.1\n\nec"), .intr, .data (bytes "ho\n")]

/-- The child becomes the shell, and the file holds those four bytes. -/
theorem postChild_runsOnly_split :
    postChild (smooth [.took 1, .intr]) (readHeaders (fun _ => false) splitScript) 4 =
        .became ⟨bytes "echo", 0, true⟩ ∧
      (postChild (smooth [.took 1, .intr]) (readHeaders (fun _ => false) splitScript) 4).RunsOnly
        (smooth [.took 1, .intr]) (((received splitScript).drop
          (readHeaders (fun _ => false) splitScript).ret.toNat).take 4) := by
  constructor
  · decide +kernel
  · exact (postChild_runsOnly _ _ splitScript 4 (by decide +kernel)).1

end Websh
