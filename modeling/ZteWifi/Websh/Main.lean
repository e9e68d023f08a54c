import ZteWifi.Net.Serving
import ZteWifi.Websh.Head

/-!
# The loop of `websh`

What `main` of `websh.c` does with a header, and at its two forks.
-/

open Ascii Net

namespace Websh

/-- The forks of `main`: for the page, and for a script of `clen` bytes. -/
inductive Fork
  | get
  | post (clen : Nat)
  deriving DecidableEq, Repr

def dispatch (head : List UInt8) : Except (List UInt8) Fork :=
  if head.take 4 = bytes "GET " then
    let path := requestPath head
    if path = bytes "/websh.html" ∨ path = bytes "/" then .ok .get
    else .error (bytes "404 Not Found")
  else
    match postLength head with
    | .error status => .error status
    | .ok clen => .ok (.post clen)

/-- Without a child the answer is an error, and the parent sleeps. -/
def afterFork : Fork → Option Nat → Int → Int × Pc Fork
  | .get, some _, n => (n + 1, .accept)
  | .get, none, n => (n, .sleep)
  | .post _, none, n => (n, .sleep)
  | .post _, some _, n => (n + 1, .accept)

def server : Program Fork := ⟨dispatch, afterFork⟩

theorem server_counts : server.Counts where
  child k pid n := by cases k <;> rfl
  failed k n := by cases k <;> rfl
  done k pid n := by
    cases k with
    | get => cases pid with
      | none => exact .inr rfl
      | some pid => exact .inl rfl
    | post clen => cases pid with
      | none => exact .inr rfl
      | some pid => exact .inl rfl

end Websh
