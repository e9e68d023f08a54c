/-!
# Reading the input into memory

`read_all` of the whole-buffer converters, of which both carry the same copy.
-/

namespace Text

/-- One round of `read_all`: `fread` fills the rest of a chunk of 65536 bytes, and a short count
ends the loop.  `cap` is the size of the buffer, doubled when another chunk might not fit. -/
def readAllLoop : Nat → Nat → List UInt8 → List UInt8 → Option (List UInt8)
  | 0, _, _, _ => none
  | n + 1, cap, buf, input =>
    let cap := if buf.length + 65536 + 1 > cap then cap * 2 else cap
    let got := input.take 65536
    -- `fread` must not write past the buffer, nor the final NUL stand behind it
    if cap < buf.length + 65536 + 1 then none
    else if got.length < 65536 then some (buf ++ got)
    else readAllLoop n cap (buf ++ got) (input.drop 65536)

/-- `read_all` on a stream without read errors, memory being available; the guard against a `cap`
over `SIZE_MAX / 2` is left out. -/
def readAll (input : List UInt8) : Option (List UInt8) :=
  readAllLoop (input.length / 65536 + 1) 131072 [] input

/-- `read_all` reads everything, and the buffer always has room for the next chunk. -/
theorem readAllLoop_eq (n cap : Nat) (buf input : List UInt8) (hn : input.length < n * 65536)
    (hcap : 131072 ≤ cap) (hbuf : buf.length ≤ cap) :
    readAllLoop n cap buf input = some (buf ++ input) := by
  induction n generalizing cap buf input with
  | zero => omega
  | succ n ih =>
    have hroom : ¬ (if buf.length + 65536 + 1 > cap then cap * 2 else cap) <
        buf.length + 65536 + 1 := by
      split <;> omega
    rw [readAllLoop]
    simp only [if_neg hroom, List.length_take]
    by_cases hlast : input.length < 65536
    · rw [if_pos (by omega), List.take_of_length_le (by omega)]
    · rw [if_neg (by omega), ih, List.append_assoc, List.take_append_drop]
      · rw [List.length_drop]
        omega
      · split <;> omega
      · rw [List.length_append, List.length_take]
        split <;> omega

theorem readAll_eq (input : List UInt8) : readAll input = some input := by
  rw [readAll, readAllLoop_eq _ _ _ _ (by omega) (Nat.le_refl _) (Nat.zero_le _), List.nil_append]

end Text
