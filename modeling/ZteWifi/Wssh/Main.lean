import ZteWifi.Net.Serving
import ZteWifi.Wssh.Handshake

/-!
# The loop of `wssh`

What `main` of `wssh.c` does with a header, and at its two forks.
-/

open Ascii Net

namespace Wssh

/-- `sfile_t`; without a `cache` the file is sent with `no-store`. -/
structure SFile where
  url : List UInt8
  path : List UInt8
  ctype : List UInt8
  cache : Option (List UInt8)
  deriving DecidableEq, Repr

/-- `STATIC_FILES` -/
def staticFiles : List SFile :=
  [⟨bytes "/", bytes "/etc_ro/web/wssh.html", bytes "text/html; charset=utf-8", none⟩,
    ⟨bytes "/wssh.html", bytes "/etc_ro/web/wssh.html", bytes "text/html; charset=utf-8", none⟩,
    ⟨bytes "/favicon.ico", bytes "/etc_ro/web/favicon.ico", bytes "image/x-icon",
      some (bytes "max-age=31536000")⟩,
    ⟨bytes "/xterm.js", bytes "/etc_ro/web/js/xterm.min.js", bytes "application/javascript",
      some (bytes "max-age=31536000")⟩,
    ⟨bytes "/xterm-fit.js", bytes "/etc_ro/web/js/xterm-addon-fit.min.js",
      bytes "application/javascript", some (bytes "max-age=31536000")⟩,
    ⟨bytes "/xterm.css", bytes "/etc_ro/web/css/xterm.min.css", bytes "text/css",
      some (bytes "max-age=31536000")⟩]

def staticLookup (path : List UInt8) : Option SFile := staticFiles.find? fun f => f.url = path

/-- The forks of `main`: for the upgrade, and for a file. -/
inductive Fork
  | upgrade
  | static (f : SFile)
  deriving DecidableEq, Repr

def dispatch (head : List UInt8) : Except (List UInt8) Fork :=
  if wantsUpgrade head then .ok .upgrade
  else if head.take 4 = bytes "GET " then
    -- the query is cut off
    match staticLookup ((requestPath head).takeWhile (· ≠ 0x3F)) with
    | none => .error (bytes "404 Not Found")
    | some f => .ok (.static f)
  else .error (bytes "404 Not Found")

/-- Without a child the answer is an error; the parent sleeps after the first of them only. -/
def afterFork : Fork → Option Nat → Int → Int × Pc Fork
  | .upgrade, none, n => (n, .sleep)
  | .upgrade, some _, n => (n + 1, .accept)
  | .static _, some _, n => (n + 1, .accept)
  | .static _, none, n => (n, .accept)

def server : Program Fork := ⟨dispatch, afterFork⟩

theorem server_counts : server.Counts where
  child k pid n := by cases k <;> rfl
  failed k n := by cases k <;> rfl
  done k pid n := by
    cases k with
    | upgrade => cases pid with
      | none => exact .inr rfl
      | some pid => exact .inl rfl
    | static f => cases pid with
      | none => exact .inl rfl
      | some pid => exact .inl rfl

end Wssh
