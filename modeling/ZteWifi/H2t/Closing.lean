import ZteWifi.H2t.Scanners
import ZteWifi.H2t.Whole

/-!
# The search for a closing tag

What `skip_until_close` reads before it looks for the `>`: everything up to the end of the leftmost
`</name`, in letters of either case.  It is the position that `find_ci` gives in the whole input.
-/

open Ascii LineBuf

namespace H2t.Stream

/-! ## 1. Occurrences and borders -/

/-- `needle` stands at `i`, in letters of either case. -/
def StandsAt (needle s : List UInt8) (i : Nat) : Prop :=
  i + needle.length ≤ s.length ∧
    ((s.drop i).take needle.length).map tolower = needle.map tolower

/-- The first `j` bytes of `w` are its last, in letters of either case, and not all of it. -/
def BorderCi (w : List UInt8) (j : Nat) : Prop :=
  j < w.length ∧ (w.take j).map tolower = (w.drop (w.length - j)).map tolower

theorem standsAt_iff {needle s : List UInt8} {i : Nat} (hi : i ≤ s.length) :
    StandsAt needle s i ↔ needle.map tolower <+: (s.map tolower).drop i := by
  rw [StandsAt, List.prefix_iff_eq_take, List.length_map, ← List.map_drop, ← List.map_take,
    eq_comm (a := List.map tolower needle)]
  constructor
  · exact fun h => h.2
  · intro h
    have hlen := congrArg List.length h
    rw [List.length_map, List.length_map, List.length_take, List.length_drop] at hlen
    exact ⟨by omega, h⟩

/-- The leftmost occurrence, by `find_ci`. -/
theorem findCi_eq_some {needle s : List UInt8} {i : Nat} (h : Whole.findCi s 0 needle = some i) :
    StandsAt needle s i ∧ ∀ j < i, ¬ StandsAt needle s j := by
  obtain ⟨k, hk, rfl⟩ := Option.map_eq_some_iff.mp h
  rw [Nat.zero_add]
  obtain ⟨hle, hat, hmin⟩ := Search.find_eq_some hk
  rw [List.drop_zero] at hle hat hmin
  rw [List.length_map] at hle
  exact ⟨(standsAt_iff hle).mpr hat, fun j hj hj' =>
    hmin j hj ((standsAt_iff (by omega)).mp hj')⟩

theorem findCi_eq_none {needle s : List UInt8} (h : Whole.findCi s 0 needle = none) (i : Nat) :
    ¬ StandsAt needle s i := by
  intro hi
  have hnone := Search.find_eq_none (Option.map_eq_none_iff.mp h) i
  rw [List.drop_zero] at hnone
  exact hnone ((standsAt_iff (by have := hi.1; omega)).mp hi)

/-! ## 2. The pattern and its table -/

theorem closePat_eq {name : List UInt8} (h : name.length ≤ 37) :
    closePat name = (lt :: slash :: name).map tolower := by
  rw [closePat, List.take_of_length_le]
  simp only [List.length_cons]
  omega

/-- A border of the prefix in lower case. -/
theorem suffix_tail_iff_borderCi {pat : List UInt8} {i j : Nat} (hi : i < pat.length)
    (hj : j ≤ pat.length) :
    (pat.map tolower).take j <:+ ((pat.map tolower).take (i + 1)).tail ↔
      BorderCi (pat.take (i + 1)) j := by
  have hne : (pat.map tolower).take (i + 1) ≠ [] := by
    rw [ne_eq, ← List.length_eq_zero_iff, List.length_take, List.length_map]
    omega
  rw [Search.suffix_tail_iff hne, BorderCi]
  simp only [List.length_take, List.length_map, Nat.min_eq_left hj,
    Nat.min_eq_left (Nat.succ_le_of_lt hi)]
  refine and_congr_right fun hlt => ?_
  rw [List.take_take, Nat.min_eq_left (Nat.le_of_lt hlt), List.map_take, List.map_drop,
    List.map_take]

/-- `fail[i]` is the length of the longest proper border of the first `i + 1` bytes. -/
theorem failTable_longest {pat : List UInt8} {i : Nat} (hi : i < pat.length) :
    ∃ j, (Search.failTable (pat.map tolower))[i]? = some j ∧ BorderCi (pat.take (i + 1)) j ∧
      ∀ k, BorderCi (pat.take (i + 1)) k → k ≤ j := by
  have hi' : i < (pat.map tolower).length := by rwa [List.length_map]
  have hne : pat.map tolower ≠ [] := List.length_pos_iff.mp (Nat.zero_lt_of_lt hi')
  have hlen : i < (Search.failTable (pat.map tolower)).length := by
    rwa [Search.failTable_length hne]
  have hborder := Search.failTable_borders (pat.map tolower) i hi'
  rw [List.getD_eq_getElem _ _ hlen] at hborder
  refine ⟨_, List.getElem?_eq_getElem hlen, ?_, fun k hk => ?_⟩
  · have hle := hborder.le
    rw [List.length_map] at hle
    exact (suffix_tail_iff_borderCi hi hle).mp hborder.suffix
  · have hle : k ≤ pat.length := by
      have := hk.1
      rw [List.length_take] at this
      omega
    exact hborder.max k (by rwa [List.length_map]) ((suffix_tail_iff_borderCi hi hle).mpr hk)

/-! ## 3. The search -/

/-- The loop over the bytes up to the name stops where `find_ci` does. -/
theorem scan_closePat (pat s : List UInt8) (hpat : pat ≠ []) :
    Search.scan tolower (pat.map tolower) (Search.failTable (pat.map tolower)) 0 s =
      (Whole.findCi s 0 pat).map fun i => s.drop (i + pat.length) := by
  rw [Search.scan_eq (mt List.map_eq_nil_iff.mp hpat), Search.behind, Whole.findCi, List.drop_zero,
    Option.map_map, List.length_map]
  congr 1
  funext i
  rw [Function.comp_apply, Nat.zero_add]

/-- `skip_until_close` goes behind the leftmost `</name` before it looks for the `>`, and to the
end of the input when there is none. -/
theorem skipUntilClose_leftmost (name s : List UInt8) (h : name.length ≤ 37) :
    (∀ i, Whole.findCi s 0 (lt :: slash :: name) = some i →
      (StandsAt (lt :: slash :: name) s i ∧ ∀ j < i, ¬ StandsAt (lt :: slash :: name) s j) ∧
      Search.scan tolower (closePat name) (Search.failTable (closePat name)) 0 s =
        some (s.drop (i + (lt :: slash :: name).length)) ∧
      skipUntilClose name s = skipToGt none (s.drop (i + (lt :: slash :: name).length))) ∧
    (Whole.findCi s 0 (lt :: slash :: name) = none →
      (∀ i, ¬ StandsAt (lt :: slash :: name) s i) ∧
      Search.scan tolower (closePat name) (Search.failTable (closePat name)) 0 s = none ∧
      skipUntilClose name s = none) ∧
    ∀ i < (lt :: slash :: name).length, ∃ j,
      (Search.failTable (closePat name))[i]? = some j ∧
      BorderCi ((lt :: slash :: name).take (i + 1)) j ∧
      ∀ k, BorderCi ((lt :: slash :: name).take (i + 1)) k → k ≤ j := by
  have hscan := scan_closePat (lt :: slash :: name) s (List.cons_ne_nil _ _)
  rw [skipUntilClose, closePat_eq h]
  refine ⟨fun i hi => ?_, fun hnone => ?_, fun i hi => failTable_longest hi⟩
  · rw [hi, Option.map_some] at hscan
    rw [hscan]
    exact ⟨findCi_eq_some hi, rfl, rfl⟩
  · rw [hnone, Option.map_none] at hscan
    rw [hscan]
    exact ⟨findCi_eq_none hnone, rfl, rfl⟩

theorem skipUntilClose_leftmost_aa :
    skipUntilClose (bytes "a</ab") (bytes "x</A</a</AB y>z") =
      skipToGt none (bytes " y>z") ∧
    skipUntilClose (bytes "a</ab") (bytes "</a </ab") = none := by
  have hname : (bytes "a</ab").length ≤ 37 := by decide
  have hfound := (skipUntilClose_leftmost _ (bytes "x</A</a</AB y>z") hname).1 4 (by decide +kernel)
  have hnone := (skipUntilClose_leftmost _ (bytes "</a </ab") hname).2.1 (by decide +kernel)
  exact ⟨hfound.2.2, hnone.2.2⟩

end H2t.Stream
