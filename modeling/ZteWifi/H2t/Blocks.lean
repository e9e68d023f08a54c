import ZteWifi.H2t.Contents
import ZteWifi.Text.Lines

/-!
# Block-level tags

The tag of a block-level element ends the line, and nothing that was read before it has an influence
on what is printed behind it.
-/

open Ascii LineBuf

namespace H2t

/-- A tag whose name stands in the table of `is_block`, in any case. -/
structure BlockTag where
  closing : Bool
  name : List UInt8
  attributes : List UInt8
  block : isBlock (name.map tolower) = true
  balanced : Stream.Balanced attributes
  ends : ∀ c ∈ attributes.head?, isNameChar c = false

namespace BlockTag

def bytes (t : BlockTag) : List UInt8 :=
  lt :: ((if t.closing then [slash] else []) ++ (t.name ++ (t.attributes ++ [gt])))

/-- The table has only names that fit in `tn` and that no skipped element has. -/
theorem blockNames_spec {n : List UInt8} (h : n ∈ blockNames) :
    n ≠ [] ∧ n.length ≤ 63 ∧ (∀ c ∈ n, isNameChar c) ∧ n ∉ skippedNames := by
  have hlength : ∀ n ∈ blockNames, n ≠ [] ∧ n.length ≤ 63 ∧ n ∉ skippedNames := by decide +kernel
  have hchars : (blockNames.all fun n => n.all isNameChar) = true := by decide +kernel
  obtain ⟨hne, hlen, hskip⟩ := hlength n h
  exact ⟨hne, hlen, List.all_eq_true.mp (List.all_eq_true.mp hchars n h), hskip⟩

theorem isNameChar_of_tolower : ∀ c : UInt8, isNameChar (tolower c) → isNameChar c := by
  decide +kernel

/-- At such a tag the line is flushed and nothing is skipped. -/
theorem handleTag_bytes (t : BlockTag) (b : List UInt8) :
    Stream.handleTag (t.bytes.tail ++ b) = ([.flush], some b) := by
  have hblock : t.name.map tolower ∈ blockNames := List.contains_iff_mem.mp t.block
  obtain ⟨hne, hlen, hchar, hskip⟩ := blockNames_spec hblock
  rw [List.length_map] at hlen
  have hname : ∀ c ∈ t.name, isNameChar c := fun c hc =>
    isNameChar_of_tolower c (hchar _ (List.mem_map_of_mem hc))
  have hnonempty : t.name ≠ [] := fun hnil => hne (by rw [hnil]; rfl)
  have htag := Stream.handleTag_balanced t.closing hnonempty hname t.balanced t.ends b
  have hbytes : t.bytes.tail ++ b =
      (if t.closing then [slash] else []) ++ (t.name ++ (t.attributes ++ gt :: b)) := by
    simp only [bytes, List.tail_cons, List.append_assoc, List.singleton_append]
  have hstay : Stream.Tag.skips ⟨t.closing, t.name.map tolower,
      t.attributes.getLast? = some slash, some b⟩ = false := by
    simp only [Stream.Tag.skips, Bool.and_eq_false_iff]
    exact .inr (by simpa using hskip)
  rw [hbytes, htag, List.take_of_length_le hlen, Stream.afterTag, hstay]
  simp only [Bool.false_eq_true, if_false, t.block, if_true]

end BlockTag

/-- After `flush_line` the buffer is as at the start, apart from what has been written. -/
theorem flushLine_eq_after (b : LineBuf) :
    flushLine b = LineBuf.empty.after (flushLine b).truncated (flushLine b).stdout := by
  rw [after, LineBuf.empty, Bool.or_false, List.append_nil, ← flushLine_line b]

theorem stdout_flush (cs ds : List Cmd) :
    (finish (cs ++ .flush :: ds)).stdout = (finish cs).stdout ++ (finish ds).stdout := by
  have hrun : execAll (cs ++ .flush :: ds) .empty =
      (execAll ds .empty).after (flushLine (execAll cs .empty)).truncated
        (flushLine (execAll cs .empty)).stdout := by
    rw [execAll_append, execAll_cons, ← execAll_after, ← flushLine_eq_after]
    rfl
  rw [finish, hrun, flushLine_after]
  rfl

/-- What is printed of a page with a block-level tag in it is what is printed of the part before it
and what is printed of the part behind it. -/
theorem blocks_compose {a : List UInt8} (ha : Stream.Between a) (t : BlockTag) (b : List UInt8) :
    (Stream.main (a ++ t.bytes ++ b)).stdout =
      (Stream.main a).stdout ++ (Stream.main b).stdout := by
  have hcommands : Stream.commands (a ++ t.bytes ++ b) =
      Stream.commands a ++ .flush :: Stream.commands b := by
    have hbytes : a ++ t.bytes ++ b = a ++ lt :: (t.bytes.tail ++ b) := List.append_assoc _ _ _
    rw [hbytes, Stream.commands_append _ ha, Stream.commands_cons, Stream.mainStep, if_pos rfl,
      t.handleTag_bytes]
    rfl
  rw [Stream.main, hcommands]
  exact stdout_flush _ _

/-- A page that ends in half an entity, before `</P class=">">`. -/
theorem blocks_compose_entity :
    (Stream.main (bytes "a &am" ++ bytes "</P class=\">\">" ++ bytes "b")).stdout =
      (Stream.main (bytes "a &am")).stdout ++ (Stream.main (bytes "b")).stdout := by
  have hbetween : Stream.Between (bytes "a &am") := by
    refine .turn (r := bytes " &am") (by decide +kernel) ?_
    refine .turn (r := bytes "&am") (by decide +kernel) ?_
    exact .turn (r := []) (by decide +kernel) .nil
  have hbalanced : Stream.Balanced (bytes " class=\">\"") := by
    refine .plain (by decide) (by decide) ?_
    refine .plain (by decide) (by decide) ?_
    refine .plain (by decide) (by decide) ?_
    refine .plain (by decide) (by decide) ?_
    refine .plain (by decide) (by decide) ?_
    refine .plain (by decide) (by decide) ?_
    refine .plain (by decide) (by decide) ?_
    exact .quoted (q := quote) (v := [gt]) (.inl rfl) (by decide) .nil
  exact blocks_compose hbetween
    ⟨true, bytes "P", bytes " class=\">\"", by decide +kernel, hbalanced, by decide +kernel⟩
    (bytes "b")

end H2t
