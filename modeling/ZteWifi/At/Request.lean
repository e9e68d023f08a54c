import Mathlib.Algebra.Group.Nat.Defs
import ZteWifi.Lib.Search
import ZteWifi.Websh.Strtol

/-!
# An AT request

`send_req_and_wait` of `at.c`: the request is put on the queue of the modem, and the first message
with the right command word is its reply.  The status is told from the text of the reply.
-/

open Ascii Net Websh

namespace At

/-! ## 1. `%d` -/

/-- What `sscanf` stores in an `int` for the number it reads, which C leaves open for one that is
out of range. -/
structure IntStore where
  val : Int → Int
  val_of_range : ∀ n, -2147483648 ≤ n → n ≤ 2147483647 → val n = n

/-- The bits that are lost are dropped. -/
def IntStore.wrap : IntStore where
  val n := n.bmod (2 ^ 32)
  val_of_range n _ _ := Int.bmod_eq_of_le (by omega) (by omega)

/-- The number that a sign and digits stand for. -/
def signed (sign ds : List UInt8) : Int := if sign = [minus] then -numeral ds else numeral ds

/-- `sscanf(s, "%d", &v)`: what is stored in `v`, if anything is. -/
def scanInt (store : IntStore) (s : List UInt8) : Option Int :=
  let sign := signOf (s.dropWhile isspace)
  let ds := ((s.dropWhile isspace).drop sign.length).takeWhile isdigit
  if ds = [] then none else some (store.val (signed sign ds))

/-- The bytes begin with a number for which `v` is stored. -/
def BeginsWith (store : IntStore) (s : List UInt8) (v : Int) : Prop :=
  ∃ blanks sign ds u, s = blanks ++ (sign ++ (ds ++ u)) ∧ (∀ c ∈ blanks, isspace c) ∧
    (sign = [] ∨ sign = [plus] ∨ sign = [minus]) ∧ ds ≠ [] ∧ (∀ c ∈ ds, isdigit c) ∧
    StartsOff isdigit u ∧ store.val (signed sign ds) = v

theorem scanInt_parts (store : IntStore) {blanks sign ds u : List UInt8}
    (hblanks : ∀ c ∈ blanks, isspace c) (hsign : sign = [] ∨ sign = [plus] ∨ sign = [minus])
    (hne : ds ≠ []) (hds : ∀ c ∈ ds, isdigit c) (hu : StartsOff isdigit u) :
    scanInt store (blanks ++ (sign ++ (ds ++ u))) = some (store.val (signed sign ds)) := by
  have hdrop := (takeWhile_startsOff hblanks (startsOff_isspace (u := u) hsign hds hne)).2
  have hdigits := (takeWhile_startsOff hds hu).1
  simp only [scanInt, hdrop, signOf_append hsign hds hne, List.drop_left, hdigits]
  rw [if_neg hne]

/-- Where `strtol` reads nothing, nothing is stored. -/
theorem scanInt_eq_none (store : IntStore) {s : List UInt8} (h : strtol s = ⟨0, 0, false⟩) :
    scanInt store s = none := by
  simp only [strtol] at h
  rw [scanInt]
  by_cases hds : ((s.dropWhile isspace).drop (signOf (s.dropWhile isspace)).length).takeWhile
      isdigit = []
  · exact if_pos hds
  · rw [if_neg hds] at h
    have hendp : _ = 0 := (Strtol.ofDigits_endp _ _ _).symm.trans (congrArg Strtol.endp h)
    exact absurd (List.length_eq_zero_iff.mp (by omega)) hds

/-- Blanks, a sign and digits are what is read. -/
theorem scanInt_eq_some (store : IntStore) (s : List UInt8) (v : Int) :
    scanInt store s = some v ↔ BeginsWith store s v := by
  constructor
  · intro h
    obtain ⟨blanks, sign, ds, u, rfl, hblanks, hsign, hds, hu, hnil⟩ := exists_parts s
    by_cases hne : ds = []
    · rw [scanInt_eq_none store (hnil hne)] at h
      cases h
    · rw [scanInt_parts store hblanks hsign hne hds hu] at h
      exact ⟨blanks, sign, ds, u, rfl, hblanks, hsign, hne, hds, hu, Option.some.inj h⟩
  · rintro ⟨blanks, sign, ds, u, rfl, hblanks, hsign, hne, hds, hu, rfl⟩
    exact scanInt_parts store hblanks hsign hne hds hu

/-! ## 2. The message queue -/

/-- The request that `send_app_req` hands to `ipc_send_message`: the command, and its length in the
word at `0xda0`. -/
def sendAppReq (atPtr : List UInt8) : List UInt8 :=
  atPtr ++ List.replicate (0xDA0 - atPtr.length) 0 ++
    (List.range 4).map (fun i => UInt8.ofNat (atPtr.length / 256 ^ i)) ++ List.replicate 4 0

theorem sendAppReq_length {atPtr : List UInt8} (h : atPtr.length < 0xDA0) :
    (sendAppReq atPtr).length = 0xDA8 := by
  simp only [sendAppReq, List.length_append, List.length_replicate, List.length_map,
    List.length_range]
  omega

/-- The member `data` of `struct at_ipc_msg` as a message fills it: at most the bytes of
`MSG_DATA_SIZE` behind the members before it. -/
structure Reply where
  cmd : UInt16
  data : List UInt8
  fits : data.length ≤ 3500
  deriving DecidableEq, Repr

/-- `msg.data`, which has been cleared before. -/
def Reply.buf (r : Reply) : List UInt8 := r.data ++ List.replicate (3504 - r.data.length) 0

/-- The text of the reply. -/
def Reply.text (r : Reply) : List UInt8 := cstr r.buf

/-- What `msgrcv` gives: a message, an interruption with `g_timed_out` as it is then, or another
failure. -/
inductive Rcv
  | message (r : Reply)
  | eintr (timedOut : Bool)
  | error
  deriving DecidableEq, Repr

/-- The loop over `msgrcv`: the message it ends with, or `none` when `ret` is negative.  The outer
`none` is a process that still waits. -/
def receive : List Rcv → Option (Option Reply)
  | [] => none
  | .message r :: evs => if r.cmd ≠ 0x1531 then receive evs else some (some r)
  | .eintr timedOut :: evs => if timedOut then some none else receive evs
  | .error :: _ => some none

/-- The loop goes on. -/
def Rcv.PassedOver : Rcv → Prop
  | .message r => r.cmd ≠ 0x1531
  | .eintr timedOut => timedOut = false
  | .error => False

theorem receive_append {pre : List Rcv} (hpre : ∀ ev ∈ pre, ev.PassedOver) (evs : List Rcv) :
    receive (pre ++ evs) = receive evs := by
  induction pre with
  | nil => rfl
  | cons ev pre ih =>
    obtain ⟨hev, hpre⟩ := List.forall_mem_cons.mp hpre
    rw [List.cons_append, ← ih hpre]
    cases ev with
    | message r => exact if_pos hev
    | eintr timedOut =>
      cases hev
      rfl
    | error => cases hev

/-- The loop ends with a reply when everything before it is passed over. -/
theorem receive_eq_reply {evs : List Rcv} {r : Reply} :
    receive evs = some (some r) ↔
      ∃ pre post, evs = pre ++ .message r :: post ∧ (∀ ev ∈ pre, ev.PassedOver) ∧
        r.cmd = 0x1531 := by
  constructor
  · intro h
    induction evs with
    | nil => cases h
    | cons ev evs ih =>
      have hstep (hev : ev.PassedOver) (h : receive evs = some (some r)) :
          ∃ pre post, ev :: evs = pre ++ .message r :: post ∧ (∀ ev ∈ pre, ev.PassedOver) ∧
            r.cmd = 0x1531 := by
        obtain ⟨pre, post, rfl, hpre, hcmd⟩ := ih h
        exact ⟨ev :: pre, post, rfl, List.forall_mem_cons.mpr ⟨hev, hpre⟩, hcmd⟩
      cases ev with
      | message r' =>
        rw [receive] at h
        split at h
        · next hcmd => exact hstep hcmd h
        · next hcmd =>
          cases h
          exact ⟨[], evs, rfl, nofun, not_not.mp hcmd⟩
      | eintr timedOut =>
        cases timedOut with
        | true => cases h
        | false => exact hstep rfl h
      | error => cases h
  · rintro ⟨pre, post, rfl, hpre, hcmd⟩
    rw [receive_append hpre, receive, if_neg (not_not.mpr hcmd)]

/-! ## 3. The request -/

/-- The status that `send_req_and_wait` gives a reply. -/
def replyStatus (store : IntStore) (r : Reply) : Int :=
  match Search.find (bytes "ERROR") r.text with
  -- the two bytes behind the word are passed over, and `err_code` is -1 before the call
  | some e => (scanInt store (r.buf.drop (e + 7))).getD (-1)
  | none => if bytes "OK" <:+: r.text then 0 else -1

/-- Where a key of the range is free, as `msgget` sees it. -/
def srcKey (free : Nat → Bool) : Option Nat := (List.range' 0x1132 (0x1233 - 0x1132)).find? free

/-- What `send_req_and_wait` leaves: its result, the text in the buffer of the caller, and the key
and the request of its message. -/
structure Exchange where
  ret : Int
  res : List UInt8
  sent : Option (Nat × List UInt8)
  deriving DecidableEq, Repr

/-- `send_req_and_wait`, for a buffer that holds nothing before.  `none` is a process that still
waits. -/
def sendReqAndWait (store : IntStore) (atPtr : List UInt8) (free : Nat → Bool) (evs : List Rcv) :
    Option Exchange :=
  if atPtr.length = 0 ∨ 0xDA0 ≤ atPtr.length then some ⟨-1, [], none⟩
  else
    match srcKey free with
    | none => some ⟨-1, [], none⟩
    | some srcid =>
      match receive evs with
      | none => none
      | some none => some ⟨-1, [], some (srcid, sendAppReq atPtr)⟩
      | some (some r) =>
        some ⟨replyStatus store r, r.text.take 3503, some (srcid, sendAppReq atPtr)⟩

/-! ## 4. The status of a reply -/

theorem find_eq_none_iff {pat s : List UInt8} : Search.find pat s = none ↔ ¬ pat <:+: s := by
  constructor
  · intro h hinfix
    obtain ⟨e, -, hsuf⟩ := Search.exists_suffix_take hinfix
    exact Search.find_none_end h e hsuf
  · intro h
    cases hfind : Search.find pat s with
    | none => rfl
    | some i =>
      obtain ⟨-, hat, -⟩ := Search.find_eq_some hfind
      exact absurd (hat.isInfix.trans (List.drop_suffix i s).isInfix) h

/-- `main` hands the low eight bits of its result to the process that waits for it. -/
def exitStatus (ret : Int) : Int := ret % 256

/-- The number behind the first `ERROR` of the reply, from its eighth byte on, is a multiple of
256. -/
def VanishingCode (store : IntStore) (r : Reply) : Prop :=
  ∃ e v, Search.find (bytes "ERROR") r.text = some e ∧ BeginsWith store (r.buf.drop (e + 7)) v ∧
    v % 256 = 0

/-- Only a code that vanishes is taken for success. -/
theorem replyStatus_iff (store : IntStore) (r : Reply) :
    (exitStatus (replyStatus store r) = 0 ↔
      bytes "OK" <:+: r.text ∧ ¬ bytes "ERROR" <:+: r.text) ↔ ¬ VanishingCode store r := by
  rw [replyStatus]
  cases herr : Search.find (bytes "ERROR") r.text with
  | none =>
    have hno := find_eq_none_iff.mp herr
    have hcode : ¬ VanishingCode store r := by
      rintro ⟨e, v, he, -⟩
      rw [herr] at he
      cases he
    show (exitStatus (if bytes "OK" <:+: r.text then 0 else -1) = 0 ↔ _) ↔ _
    by_cases hok : bytes "OK" <:+: r.text
    · rw [if_pos hok]
      exact iff_of_true (iff_of_true rfl ⟨hok, hno⟩) hcode
    · rw [if_neg hok]
      exact iff_of_true (iff_of_false (by decide) fun h => hok h.1) hcode
  | some e =>
    have hyes : bytes "ERROR" <:+: r.text := by
      by_contra hno
      rw [find_eq_none_iff.mpr hno] at herr
      cases herr
    have hclaim : ¬ (bytes "OK" <:+: r.text ∧ ¬ bytes "ERROR" <:+: r.text) := fun h => h.2 hyes
    rw [iff_false_right hclaim, not_iff_not]
    show exitStatus ((scanInt store (r.buf.drop (e + 7))).getD (-1)) = 0 ↔ _
    constructor
    · intro hzero
      cases hscan : scanInt store (r.buf.drop (e + 7)) with
      | none =>
        rw [hscan] at hzero
        exact absurd hzero (by decide)
      | some v =>
        rw [hscan] at hzero
        exact ⟨e, v, herr, (scanInt_eq_some store _ v).mp hscan, hzero⟩
    · rintro ⟨e', v, he', hbegins, hv⟩
      obtain rfl : e = e' := Option.some.inj (herr.symm.trans he')
      rw [(scanInt_eq_some store _ v).mpr hbegins]
      exact hv

end At
