import ZteWifi.At.Request

/-!
# The command `at`

`main` of `at.c` with its arguments, its outputs and its result, of which the process that waits for
it sees the low eight bits.
-/

open Ascii Net

namespace At

/-! ## 1. The command -/

/-- The texts on the standard error output. -/
inductive Message
  | usage
  | notAt
  | tooLong
  | badFlag
  | error
  | ok
  deriving DecidableEq, Repr

/-- What a run leaves. -/
structure Outcome where
  ret : Int
  stdout : List UInt8
  stderr : Option Message
  deriving DecidableEq, Repr

/-- `extract_respond`: its result and what it writes. -/
def extractRespond (res : List UInt8) : Int × List UInt8 :=
  match Search.find (bytes ": ") res with
  | none => (1, [])
  | some i =>
    let val := (res.drop (i + 2)).takeWhile fun c => c ≠ 0x0D ∧ c ≠ nl
    if val = [] then (-1, []) else (0, bytes "_" ++ val ++ bytes "_" ++ [nl])

/-- The checks on the command. -/
def checkCmd (cmd : List UInt8) : Except Message Unit :=
  if cmd.length < 4 ∨ (cmd.take 3).map tolower ≠ bytes "at+" then .error .notAt
  else if 250 < cmd.length then .error .tooLong
  else .ok ()

/-- The variable `more`. -/
def checkFlag : Option (List UInt8) → Except Message Bool
  | none => .ok false
  | some flag =>
    if flag = bytes "0" then .ok false
    else if flag = bytes "1" then .ok true
    else .error .badFlag

/-- The arguments behind the name of the program: the command, and whether the output is
formatted. -/
def parseArgs : List (List UInt8) → Except Message (List UInt8 × Bool)
  | [] => .error .usage
  | cmd :: flags =>
    if 1 < flags.length then .error .usage
    else
      match checkCmd cmd with
      | .error m => .error m
      | .ok () => (checkFlag flags.head?).map fun more => (cmd, more)

/-- `main`.  `none` is a process that still waits. -/
def main (store : IntStore) (argv : List (List UInt8)) (free : Nat → Bool) (evs : List Rcv) :
    Option Outcome :=
  match parseArgs argv with
  | .error m => some ⟨1, [], some m⟩
  | .ok (cmd, more) =>
    match sendReqAndWait store (cmd ++ [0x0D, nl]) free evs with
    | none => none
    | some x =>
      if ¬ more then some ⟨x.ret, x.res ++ [nl], none⟩
      else if x.ret ≠ 0 then some ⟨x.ret, [], some .error⟩
      else
        let (ret2, out) := extractRespond x.res
        if ret2 = 0 then some ⟨0, out, none⟩
        else if ret2 = 1 then some ⟨1, out, some .ok⟩
        else some ⟨-1, out, some .error⟩

/-! ## 2. The exit status -/

/-- The arguments are a command without a format, and a key is free. -/
structure Plain (argv : List (List UInt8)) (free : Nat → Bool) (cmd : List UInt8) : Prop where
  args : parseArgs argv = .ok (cmd, false)
  key : srcKey free ≠ none

theorem parseArgs_length {argv : List (List UInt8)} {cmd : List UInt8} {more : Bool}
    (h : parseArgs argv = .ok (cmd, more)) : cmd.length ≤ 250 := by
  cases argv with
  | nil => cases h
  | cons cmd' flags =>
    rw [parseArgs] at h
    split at h
    · cases h
    · rw [checkCmd] at h
      split_ifs at h with hat hlong
      cases hflag : checkFlag flags.head? with
      | error m =>
        rw [hflag] at h
        cases h
      | ok more' =>
        rw [hflag] at h
        cases h
        omega

/-- A run in which a reply comes. -/
theorem main_reply (store : IntStore) {argv : List (List UInt8)} {free : Nat → Bool}
    {cmd : List UInt8} (h : Plain argv free cmd) {pre : List Rcv} {r : Reply}
    (hpre : ∀ ev ∈ pre, ev.PassedOver) (hcmd : r.cmd = 0x1531) (post : List Rcv) :
    main store argv free (pre ++ .message r :: post) =
      some ⟨replyStatus store r, r.text.take 3503 ++ [nl], none⟩ := by
  obtain ⟨srcid, hkey⟩ := Option.ne_none_iff_exists'.mp h.key
  have hreceive := receive_eq_reply.mpr ⟨pre, post, rfl, hpre, hcmd⟩
  have hlen := parseArgs_length h.args
  have hfits : ¬ ((cmd ++ [0x0D, nl]).length = 0 ∨ 0xDA0 ≤ (cmd ++ [0x0D, nl]).length) := by
    rw [List.length_append]
    simp only [List.length_cons, List.length_nil]
    omega
  rw [main, h.args]
  simp only [sendReqAndWait, if_neg hfits, hkey, hreceive]
  rfl

/-- The exit status tells a reply with `OK` and without `ERROR` from all others, but for an `ERROR`
whose number vanishes modulo 256. -/
theorem main_exitStatus (store : IntStore) (argv : List (List UInt8)) (free : Nat → Bool)
    (cmd : List UInt8) (h : Plain argv free cmd) (pre post : List Rcv) (r : Reply)
    (hpre : ∀ ev ∈ pre, ev.PassedOver) (hcmd : r.cmd = 0x1531) :
    ∃ x, main store argv free (pre ++ .message r :: post) = some x ∧
      ((exitStatus x.ret = 0 ↔ bytes "OK" <:+: r.text ∧ ¬ bytes "ERROR" <:+: r.text) ↔
        ¬ VanishingCode store r) :=
  ⟨_, main_reply store h hpre hcmd post, replyStatus_iff store r⟩

/-- A reply with a text and line ends around it. -/
def Reply.ofText (text : String) (h : (bytes text).length ≤ 3496) : Reply where
  cmd := 0x1531
  data := [0x0D, nl] ++ bytes text ++ [0x0D, nl]
  fits := by
    simp only [List.length_append, List.length_cons, List.length_nil]
    omega

theorem main_exitStatus_ok :
    ∃ x, main .wrap [bytes "AT+CFUN=1"] (fun key => key = 0x1140)
        [.eintr false, .message ⟨0x1530, [], by decide⟩, .message (.ofText "OK" (by decide))] =
          some x ∧ exitStatus x.ret = 0 := by
  have hplain : Plain [bytes "AT+CFUN=1"] (fun key => key = 0x1140) (bytes "AT+CFUN=1") :=
    ⟨by decide +kernel, by decide +kernel⟩
  obtain ⟨x, hx, hiff⟩ := main_exitStatus .wrap _ _ _ hplain
    [.eintr false, .message ⟨0x1530, [], by decide⟩] [] (.ofText "OK" (by decide))
    (by simp [Rcv.PassedOver]) rfl
  have hok : bytes "OK" <:+: (Reply.ofText "OK" (by decide)).text ∧
      ¬ bytes "ERROR" <:+: (Reply.ofText "OK" (by decide)).text := by decide +kernel
  have hcode : ¬ VanishingCode .wrap (.ofText "OK" (by decide)) := by
    rintro ⟨e, v, he, -⟩
    rw [find_eq_none_iff.mpr hok.2] at he
    cases he
  exact ⟨x, hx, (hiff.mpr hcode).mpr hok⟩

/-- The error 0 of a modem is reported as success. -/
theorem main_exitStatus_error_zero :
    ¬ ∀ (store : IntStore) (argv : List (List UInt8)) (free : Nat → Bool) (cmd : List UInt8),
      Plain argv free cmd → ∀ (pre post : List Rcv) (r : Reply), (∀ ev ∈ pre, ev.PassedOver) →
        r.cmd = 0x1531 → ∃ x, main store argv free (pre ++ .message r :: post) = some x ∧
          (exitStatus x.ret = 0 ↔ bytes "OK" <:+: r.text ∧ ¬ bytes "ERROR" <:+: r.text) := by
  intro h
  obtain ⟨x, hx, hiff⟩ := h .wrap [bytes "AT+CFUN=1"] (fun _ => true) (bytes "AT+CFUN=1")
    ⟨by decide +kernel, by decide +kernel⟩ [] [] (.ofText "+CME ERROR: 0" (by decide)) nofun rfl
  have hrun : main .wrap [bytes "AT+CFUN=1"] (fun _ => true)
      ([] ++ .message (.ofText "+CME ERROR: 0" (by decide)) :: []) =
        some ⟨0, [0x0D, nl] ++ bytes "+CME ERROR: 0" ++ [0x0D, nl, nl], none⟩ := by decide +kernel
  rw [hrun] at hx
  cases hx
  exact (hiff.mp rfl).2 (by decide +kernel)

end At
