/-
This file models the text operations of `common/outbuffer.d` and shows that over every run a buffer
holds the text that they build.

The bytes lie in an array that grows, and those behind the offset are whatever they are. Inserting
moves the bytes behind the gap, removing moves them back. A buffer that indents writes blanks where
a line begins, and whoever writes the first byte of a line writes them first, `peekChars` with its
zero too. A copy of a buffer onto itself and memory that runs out are left out.
-/

import Mathlib.Data.List.DropRight
import LaserD.Root.Utf

namespace LaserD.Common

open Overwrite

/-! ### The buffer -/

/-- `OutBuffer`: the storage, and how lines are indented. -/
structure OutBuffer extends Root.Utf.OutBuffer where
  notlinehead : Bool := false
  doindent : Bool := false
  spaces : Bool := false
  level : Nat := 0

namespace OutBuffer

/-- What `memmove` and `memcpy` do, and the offset afterwards. A write past the end fails. -/
def store (buffer : OutBuffer) (position : Nat) (bytes : List (BitVec 8)) (offset : Nat) :
    Option OutBuffer :=
  if fits : position + bytes.length ≤ buffer.data.length ∧ offset ≤ buffer.data.length then
    some { buffer with
      data := overwrite buffer.data position bytes
      offset := offset
      inside := by rw [length_overwrite fits.1]; exact fits.2 }
  else none

/-- `setsize`. A failed assertion is nothing. -/
def setsize (buffer : OutBuffer) (size : Nat) : Option OutBuffer :=
  buffer.store 0 [] size

section

variable (fresh : Nat → BitVec 8)

/-- `reserve`. -/
def reserve (buffer : OutBuffer) (nbytes : Nat) : OutBuffer :=
  { buffer with toOutBuffer := buffer.toOutBuffer.reserve nbytes fresh }

/-- The bytes behind the offset, for which room is made. -/
def append (buffer : OutBuffer) (bytes : List (BitVec 8)) : Option OutBuffer :=
  (buffer.reserve fresh bytes.length).store buffer.offset bytes (buffer.offset + bytes.length)

/-- `indent`. -/
def indent (buffer : OutBuffer) : Option OutBuffer := do
  let buffer ← if buffer.level ≠ 0 then
      let indentLevel := if buffer.spaces then buffer.level * 4 else buffer.level
      buffer.append fresh (List.replicate indentLevel (if buffer.spaces then 0x20 else 0x09))
    else some buffer
  some { buffer with notlinehead := true }

/-- The indentation of a line that begins. -/
def startLine (buffer : OutBuffer) : Option OutBuffer :=
  if buffer.doindent && !buffer.notlinehead then buffer.indent fresh else some buffer

/-- `write` of a slice. -/
def write (buffer : OutBuffer) (buf : List (BitVec 8)) : Option OutBuffer := do
  let buffer ← buffer.startLine fresh
  buffer.append fresh buf

/-- `writeByte`. -/
def writeByte (buffer : OutBuffer) (b : BitVec 8) : Option OutBuffer := do
  let buffer ← if b ≠ 0x0A then buffer.startLine fresh else some buffer
  buffer.append fresh [b]

/-- `fill0`. -/
def fill0 (buffer : OutBuffer) (nbytes : Nat) : Option OutBuffer :=
  buffer.append fresh (List.replicate nbytes 0)

/-- A space or a tab. -/
def isBlank (b : BitVec 8) : Bool :=
  b = 0x20 || b = 0x09

/-- The loop of `writenl` over the blanks at the end. -/
def trim (data : List (BitVec 8)) : Nat → Nat
  | 0 => 0
  | offset + 1 => if isBlank (data.getD offset 0) then trim data offset else offset + 1

/-- `writenl`, outside of Windows. -/
def writenl (buffer : OutBuffer) : Option OutBuffer := do
  let buffer ← buffer.store 0 [] (trim buffer.data buffer.offset)
  let buffer ← buffer.writeByte fresh 0x0A
  some (if buffer.doindent then { buffer with notlinehead := false } else buffer)

/-- `spread`. -/
def spread (buffer : OutBuffer) (offset nbytes : Nat) : Option OutBuffer :=
  let buffer := buffer.reserve fresh nbytes
  buffer.store (offset + nbytes) ((buffer.data.drop offset).take (buffer.offset - offset))
    (buffer.offset + nbytes)

/-- `insert`. -/
def insert (buffer : OutBuffer) (offset : Nat) (p : List (BitVec 8)) : Option OutBuffer := do
  let buffer ← buffer.spread fresh offset p.length
  buffer.store offset p buffer.offset

/-- `prependstring`, and `prependbyte` with a single byte. -/
def prependstring (buffer : OutBuffer) (string : List (BitVec 8)) : Option OutBuffer :=
  buffer.insert fresh 0 string

/-- `bracket` of the whole buffer. -/
def bracket (buffer : OutBuffer) (left right : BitVec 8) : Option OutBuffer := do
  let buffer := buffer.reserve fresh 2
  let buffer ← buffer.store 1 (buffer.data.take buffer.offset) buffer.offset
  let buffer ← buffer.store 0 [left] buffer.offset
  buffer.store (buffer.offset + 1) [right] (buffer.offset + 2)

/-- `bracket` of a stretch. -/
def bracketAt (buffer : OutBuffer) (i : Nat) (left : List (BitVec 8)) (j : Nat)
    (right : List (BitVec 8)) : Option OutBuffer := do
  let buffer := buffer.reserve fresh (left.length + right.length)
  let buffer ← buffer.insert fresh i left
  buffer.insert fresh (j + left.length) right

/-- `remove`. -/
def remove (buffer : OutBuffer) (offset nbytes : Nat) : Option OutBuffer :=
  buffer.store offset
    ((buffer.data.drop (offset + nbytes)).take (buffer.offset - (offset + nbytes)))
    (buffer.offset - nbytes)

/-- `peekChars`. -/
def peekChars (buffer : OutBuffer) : Option OutBuffer :=
  if buffer.offset = 0 ∨ buffer.data.getD (buffer.offset - 1) 0 ≠ 0 then do
    let buffer ← buffer.writeByte fresh 0
    buffer.store 0 [] (buffer.offset - 1)
  else some buffer

end

end OutBuffer

/-! ### The text -/

/-- What a buffer is for: a text, and how its lines are indented. -/
structure Text where
  contents : List (BitVec 8)
  notlinehead : Bool
  doindent : Bool
  spaces : Bool
  level : Nat

namespace Text

/-- The blanks at the beginning of a line. -/
def indentation (text : Text) : List (BitVec 8) :=
  List.replicate (if text.spaces then text.level * 4 else text.level)
    (if text.spaces then 0x20 else 0x09)

def append (text : Text) (bytes : List (BitVec 8)) : Text :=
  { text with contents := text.contents ++ bytes }

/-- The indentation of a line that begins. -/
def startLine (text : Text) : Text :=
  if text.doindent && !text.notlinehead then
    { text with contents := text.contents ++ text.indentation, notlinehead := true }
  else text

end Text

/-- The operations of a program. -/
inductive Op
  | indenting (doindent spaces : Bool) (level : Nat)
  | reserve (nbytes : Nat)
  | setsize (size : Nat)
  | write (buf : List (BitVec 8))
  | writeByte (b : BitVec 8)
  | fill0 (nbytes : Nat)
  | writenl
  | insert (offset : Nat) (p : List (BitVec 8))
  | prependstring (string : List (BitVec 8))
  | bracket (left right : BitVec 8)
  | bracketAt (i : Nat) (left : List (BitVec 8)) (j : Nat) (right : List (BitVec 8))
  | remove (offset nbytes : Nat)
  | peekChars

/-- The operation on a buffer. -/
def Op.perform (fresh : Nat → BitVec 8) (op : Op) (buffer : OutBuffer) : Option OutBuffer :=
  match op with
  | .indenting doindent spaces level => some { buffer with doindent, spaces, level }
  | .reserve nbytes => some (buffer.reserve fresh nbytes)
  | .setsize size => buffer.setsize size
  | .write buf => buffer.write fresh buf
  | .writeByte b => buffer.writeByte fresh b
  | .fill0 nbytes => buffer.fill0 fresh nbytes
  | .writenl => buffer.writenl fresh
  | .insert offset p => buffer.insert fresh offset p
  | .prependstring string => buffer.prependstring fresh string
  | .bracket left right => buffer.bracket fresh left right
  | .bracketAt i left j right => buffer.bracketAt fresh i left j right
  | .remove offset nbytes => buffer.remove offset nbytes
  | .peekChars => buffer.peekChars fresh

/-- The positions of an operation lie inside of the text. -/
def Op.Inside (op : Op) (text : Text) : Prop :=
  match op with
  | .setsize size => size ≤ text.contents.length
  | .insert offset _ => offset ≤ text.contents.length
  | .bracketAt i _ j _ => i ≤ j ∧ j ≤ text.contents.length
  | .remove offset nbytes => offset + nbytes ≤ text.contents.length
  | _ => True

/-- The operation on a text. -/
def Op.edit (op : Op) (text : Text) : Text :=
  match op with
  | .indenting doindent spaces level => { text with doindent, spaces, level }
  | .reserve _ => text
  | .setsize size => { text with contents := text.contents.take size }
  | .write buf => text.startLine.append buf
  | .writeByte b => (if b ≠ 0x0A then text.startLine else text).append [b]
  | .fill0 nbytes => text.append (List.replicate nbytes 0)
  | .writenl =>
    { text with
      contents := text.contents.rdropWhile OutBuffer.isBlank ++ [0x0A]
      notlinehead := !text.doindent && text.notlinehead }
  | .insert offset p =>
    { text with contents := text.contents.take offset ++ p ++ text.contents.drop offset }
  | .prependstring string => { text with contents := string ++ text.contents }
  | .bracket left right => { text with contents := left :: text.contents ++ [right] }
  | .bracketAt i left j right =>
    { text with
      contents := text.contents.take i ++ left ++ (text.contents.take j).drop i ++ right ++
        text.contents.drop j }
  | .remove offset nbytes =>
    { text with contents := text.contents.take offset ++ text.contents.drop (offset + nbytes) }
  | .peekChars => if text.contents.getLast? = some 0 then text else text.startLine

/-! ### Storing -/

/-- Moving a tail back by a stretch and storing elements in the gap inserts them. -/
theorem take_overwrite_spread {T : Type} {stored values : List T} {position used : Nat}
    (inside : position ≤ used) (room : used + values.length ≤ stored.length) :
    (overwrite (overwrite stored (position + values.length)
        ((stored.drop position).take (used - position))) position values).take
          (used + values.length) =
      (stored.take used).take position ++ values ++ (stored.take used).drop position := by
  have shifted : position + values.length + ((stored.drop position).take (used - position)).length ≤
      stored.length := by
    rw [List.length_take, List.length_drop]
    omega
  refine List.ext_getElem? fun index => ?_
  rw [List.getElem?_take, getElem?_overwrite (by
    rw [length_overwrite shifted]
    omega), getElem?_overwrite shifted]
  simp only [List.getElem?_append, List.getElem?_take, List.getElem?_drop, List.length_take,
    List.length_append]
  grind

namespace OutBuffer

variable {fresh : Nat → BitVec 8} {buffer : OutBuffer}

/-- The text that a buffer holds. -/
def text (buffer : OutBuffer) : Text :=
  ⟨buffer.written, buffer.notlinehead, buffer.doindent, buffer.spaces, buffer.level⟩

theorem length_written : buffer.written.length = buffer.offset :=
  List.length_take_of_le buffer.inside

theorem store_spec {position offset : Nat} {bytes : List (BitVec 8)}
    (fits : position + bytes.length ≤ buffer.data.length) (inside : offset ≤ buffer.data.length) :
    ∃ after, buffer.store position bytes offset = some after ∧
      after.data = overwrite buffer.data position bytes ∧ after.offset = offset ∧
      after.text =
        { buffer.text with contents := (overwrite buffer.data position bytes).take offset } :=
  ⟨_, dif_pos ⟨fits, inside⟩, rfl, rfl, rfl⟩

/-- Going back to an offset. -/
theorem store_nil {offset : Nat} (inside : offset ≤ buffer.offset) :
    ∃ after, buffer.store 0 [] offset = some after ∧
      after.text = { buffer.text with contents := buffer.text.contents.take offset } := by
  obtain ⟨after, stored, -, -, same⟩ := @store_spec buffer 0 offset [] (Nat.zero_le _)
    (inside.trans buffer.inside)
  refine ⟨after, stored, ?_⟩
  rw [same, overwrite_nil, text, Root.Utf.OutBuffer.written, List.take_take,
    Nat.min_eq_left inside]

theorem reserve_text (nbytes : Nat) : (buffer.reserve fresh nbytes).text = buffer.text ∧
    (buffer.reserve fresh nbytes).offset = buffer.offset ∧
    buffer.offset + nbytes ≤ (buffer.reserve fresh nbytes).data.length := by
  obtain ⟨offset, kept, room⟩ := buffer.toOutBuffer.reserve_spec nbytes fresh
  exact ⟨congrArg (fun contents => Text.mk contents _ _ _ _) kept, offset, room⟩

theorem append_spec (bytes : List (BitVec 8)) : ∃ after, buffer.append fresh bytes = some after ∧
    after.text = buffer.text.append bytes := by
  obtain ⟨kept, offset, room⟩ := @reserve_text fresh buffer bytes.length
  obtain ⟨after, stored, -, -, same⟩ := store_spec room room
  refine ⟨after, stored, ?_⟩
  rw [same, take_overwrite room, kept, ← offset]
  exact congrArg (fun contents => { buffer.text with contents := contents ++ bytes })
    (congrArg Text.contents kept)

theorem startLine_spec : ∃ after, buffer.startLine fresh = some after ∧
    after.text = buffer.text.startLine := by
  have begin_ : buffer.text.startLine = if buffer.doindent && !buffer.notlinehead then
      { buffer.text with
        contents := buffer.text.contents ++ buffer.text.indentation
        notlinehead := true }
      else buffer.text := rfl
  rw [startLine, begin_]
  by_cases begins : buffer.doindent && !buffer.notlinehead
  · rw [if_pos begins, if_pos begins, indent]
    by_cases none : buffer.level = 0
    · rw [if_neg (not_not_intro none)]
      refine ⟨_, rfl, ?_⟩
      have nothing : buffer.text.indentation = [] := by
        rw [Text.indentation, text, none]
        split <;> rfl
      rw [nothing, List.append_nil]
      rfl
    · rw [if_pos none]
      obtain ⟨after, appended, same⟩ := @append_spec fresh buffer buffer.text.indentation
      have indented : (buffer.append fresh buffer.text.indentation).bind
          (fun buffer => some { buffer with notlinehead := true }) =
            some { after with notlinehead := true } := by
        rw [appended]
        rfl
      exact ⟨_, indented, congrArg (fun text : Text => { text with notlinehead := true }) same⟩
  · rw [if_neg begins, if_neg begins]
    exact ⟨_, rfl, rfl⟩

theorem write_spec (buf : List (BitVec 8)) : ∃ after, buffer.write fresh buf = some after ∧
    after.text = buffer.text.startLine.append buf := by
  obtain ⟨started, starts, same⟩ := @startLine_spec fresh buffer
  obtain ⟨after, appended, result⟩ := @append_spec fresh started buf
  refine ⟨after, ?_, by rw [result, same]⟩
  rw [write, starts]
  exact appended

theorem writeByte_spec (b : BitVec 8) : ∃ after, buffer.writeByte fresh b = some after ∧
    after.text = (if b ≠ 0x0A then buffer.text.startLine else buffer.text).append [b] := by
  rw [writeByte]
  by_cases newline : b ≠ 0x0A
  · rw [if_pos newline, if_pos newline]
    exact write_spec [b]
  · rw [if_neg newline, if_neg newline]
    exact append_spec [b]

theorem trim_spec (data : List (BitVec 8)) {offset : Nat} (inside : offset ≤ data.length) :
    trim data offset ≤ offset ∧
      data.take (trim data offset) = (data.take offset).rdropWhile isBlank := by
  induction offset with
  | zero =>
    rw [trim, List.take_zero]
    exact ⟨le_rfl, rfl⟩
  | succ offset inductionHypothesis =>
    obtain ⟨shorter, same⟩ := inductionHypothesis (Nat.le_of_succ_le inside)
    have last : data.take (offset + 1) = data.take offset ++ [data[offset]] :=
      List.take_succ_eq_append_getElem inside
    have read : data.getD offset 0 = data[offset] := List.getD_eq_getElem _ _ inside
    rw [trim, read]
    by_cases blank : isBlank data[offset] = true
    · rw [if_pos blank, last, List.rdropWhile_concat_pos _ _ _ blank]
      exact ⟨shorter.trans (Nat.le_succ _), same⟩
    · rw [if_neg blank, last, List.rdropWhile_concat_neg _ _ _ blank]
      exact ⟨le_rfl, rfl⟩

/-! ### Editing -/

theorem writenl_spec : ∃ after, buffer.writenl fresh = some after ∧
    after.text = Op.writenl.edit buffer.text := by
  obtain ⟨shorter, trimmed⟩ := trim_spec buffer.data buffer.inside
  obtain ⟨back, stored, same⟩ := store_nil shorter
  obtain ⟨after, written, result⟩ := @writeByte_spec fresh back 0x0A
  have contents : buffer.text.contents.take (trim buffer.data buffer.offset) =
      buffer.text.contents.rdropWhile isBlank := by
    rw [← show buffer.data.take buffer.offset = buffer.text.contents from rfl, ← trimmed,
      List.take_take, Nat.min_eq_left shorter]
  rw [if_neg (not_not_intro rfl), same, contents, Text.append] at result
  rw [writenl, stored]
  simp only [Option.bind_eq_bind, Option.bind_some, written]
  have indents : after.doindent = buffer.doindent := congrArg Text.doindent result
  refine ⟨_, rfl, ?_⟩
  rw [Op.edit]
  cases does : buffer.doindent with
  | false =>
    have kept : (!buffer.text.doindent && buffer.text.notlinehead) = buffer.text.notlinehead := by
      rw [show buffer.text.doindent = false from does]
      rfl
    rw [if_neg (Bool.eq_false_iff.mp (indents.trans does)), result, kept]
  | true =>
    have cleared : (!buffer.text.doindent && buffer.text.notlinehead) = false := by
      rw [show buffer.text.doindent = true from does]
      rfl
    rw [if_pos (indents.trans does), cleared]
    exact congrArg (fun text : Text => { text with notlinehead := false }) result

theorem insert_spec {offset : Nat} (p : List (BitVec 8)) (inside : offset ≤ buffer.offset) :
    ∃ after, buffer.insert fresh offset p = some after ∧
      after.text = (Op.insert offset p).edit buffer.text := by
  obtain ⟨kept, same, room⟩ := @reserve_text fresh buffer p.length
  rw [insert, spread]
  generalize buffer.reserve fresh p.length = grown at *
  have tail : ((grown.data.drop offset).take (grown.offset - offset)).length =
      grown.offset - offset := by
    have ends := grown.inside
    rw [List.length_take, List.length_drop]
    omega
  obtain ⟨moved, spreads, data, behind, text⟩ := @store_spec grown (offset + p.length)
    (grown.offset + p.length) ((grown.data.drop offset).take (grown.offset - offset))
    (by rw [tail]; omega) (by omega)
  have length : moved.data.length = grown.data.length := by
    rw [data, length_overwrite (by rw [tail]; omega)]
  obtain ⟨after, stored, -, -, result⟩ := @store_spec moved offset moved.offset p (by omega)
    moved.inside
  refine ⟨after, ?_, ?_⟩
  · rw [spreads]
    exact stored
  · rw [result, data, behind, take_overwrite_spread (by omega) (by omega), text, ← kept]
    rfl

theorem remove_spec {offset nbytes : Nat} (inside : offset + nbytes ≤ buffer.offset) :
    ∃ after, buffer.remove offset nbytes = some after ∧
      after.text = (Op.remove offset nbytes).edit buffer.text := by
  have ends := buffer.inside
  obtain ⟨after, stored, -, -, result⟩ := @store_spec buffer offset (buffer.offset - nbytes)
    ((buffer.data.drop (offset + nbytes)).take (buffer.offset - (offset + nbytes)))
    (by rw [List.length_take, List.length_drop]; omega) (by omega)
  refine ⟨after, stored, ?_⟩
  have removed := take_overwrite_remove (Nat.le_add_right offset nbytes) inside ends
  rw [Nat.add_sub_cancel_left] at removed
  rw [result, removed]
  rfl

theorem bracket_spec (left right : BitVec 8) :
    ∃ after, buffer.bracket fresh left right = some after ∧
      after.text = (Op.bracket left right).edit buffer.text := by
  obtain ⟨kept, same, room⟩ := @reserve_text fresh buffer 2
  rw [bracket]
  generalize buffer.reserve fresh 2 = grown at *
  have whole : (grown.data.take grown.offset).length = grown.offset :=
    List.length_take_of_le grown.inside
  have fits : 1 + (grown.data.take grown.offset).length ≤ grown.data.length := by omega
  obtain ⟨moved, moves, data, offset, text⟩ := store_spec fits grown.inside
  have length : moved.data.length = grown.data.length := by
    rw [data, length_overwrite fits]
  obtain ⟨opened, opens, data', offset', text'⟩ := @store_spec moved 0 moved.offset [left]
    (by rw [List.length_singleton]; omega) moved.inside
  have length' : opened.data.length = grown.data.length := by
    rw [data', length_overwrite (by rw [List.length_singleton]; omega), length]
  obtain ⟨after, closes, -, -, result⟩ := @store_spec opened (opened.offset + 1)
    (opened.offset + 2) [right] (by rw [List.length_singleton]; omega) (by omega)
  refine ⟨after, ?_, ?_⟩
  · rw [moves]
    simp only [Option.bind_eq_bind, Option.bind_some, opens]
    exact closes
  · have first := @take_overwrite_spread _ grown.data [left] 0 grown.offset (Nat.zero_le _)
      (by rw [List.length_singleton]; omega)
    have second := @take_overwrite _ opened.data (opened.offset + 1) [right]
      (by rw [List.length_singleton]; omega)
    rw [List.length_singleton, Nat.zero_add, List.drop_zero, Nat.sub_zero, List.take_zero,
      List.nil_append, List.drop_zero, ← data, ← data', ← offset, ← offset'] at first
    rw [List.length_singleton, first] at second
    have offsets : opened.offset = grown.offset := offset'.trans offset
    rw [result, second, text', text, ← kept, offsets]
    rfl

theorem bracketAt_spec {i j : Nat} (left right : List (BitVec 8)) (ordered : i ≤ j)
    (inside : j ≤ buffer.offset) : ∃ after, buffer.bracketAt fresh i left j right = some after ∧
      after.text = (Op.bracketAt i left j right).edit buffer.text := by
  obtain ⟨kept, same, -⟩ := @reserve_text fresh buffer (left.length + right.length)
  rw [bracketAt]
  generalize buffer.reserve fresh (left.length + right.length) = grown at *
  obtain ⟨opened, opens, first⟩ := @insert_spec fresh grown i left (by omega)
  have length : opened.offset = grown.offset + left.length := by
    have lengths := congrArg (fun text => text.contents.length) first
    rw [← length_written, ← @length_written grown]
    refine lengths.trans ?_
    rw [Op.edit]
    simp only [List.length_append, List.length_take, List.length_drop]
    have whole : grown.text.contents.length = grown.offset := length_written
    have written : grown.written.length = grown.offset := length_written
    omega
  obtain ⟨after, closes, second⟩ := @insert_spec fresh opened (j + left.length) right (by omega)
  refine ⟨after, ?_, ?_⟩
  · rw [opens]
    exact closes
  · have whole : buffer.text.contents.length = buffer.offset := length_written
    rw [second, first, kept]
    refine congrArg (fun contents => { buffer.text with contents := contents }) ?_
    refine List.ext_getElem? fun index => ?_
    simp only [Op.edit, List.getElem?_append, List.getElem?_take, List.getElem?_drop,
      List.length_take, List.length_append, List.length_drop]
    grind

theorem getLast?_text : buffer.text.contents.getLast? = some 0 ↔
    ¬(buffer.offset = 0 ∨ buffer.data.getD (buffer.offset - 1) 0 ≠ 0) := by
  have whole : buffer.text.contents.length = buffer.offset := length_written
  have ends := buffer.inside
  rw [List.getLast?_eq_getElem?, whole]
  by_cases empty : buffer.offset = 0
  · have nothing : buffer.text.contents = [] := List.length_eq_zero_iff.mp (whole.trans empty)
    rw [nothing, List.getElem?_nil]
    exact iff_of_false (Option.some_ne_none 0).symm (not_not_intro (.inl empty))
  · have inside : buffer.offset - 1 < buffer.data.length := by omega
    have last : buffer.text.contents[buffer.offset - 1]? = some buffer.data[buffer.offset - 1] := by
      rw [text, Root.Utf.OutBuffer.written, List.getElem?_take_of_lt (by omega),
        List.getElem?_eq_getElem inside]
    rw [last, List.getD_eq_getElem _ _ inside, Option.some_inj, or_iff_right empty, not_not]

theorem peekChars_spec : ∃ after, buffer.peekChars fresh = some after ∧
    after.text = Op.peekChars.edit buffer.text := by
  rw [peekChars, Op.edit]
  by_cases open_ : buffer.offset = 0 ∨ buffer.data.getD (buffer.offset - 1) 0 ≠ 0
  · rw [if_pos open_, if_neg fun closed => getLast?_text.mp closed open_]
    obtain ⟨zeroed, written, same⟩ := @writeByte_spec fresh buffer 0
    obtain ⟨after, stored, result⟩ := @store_nil zeroed (zeroed.offset - 1) (Nat.sub_le _ _)
    refine ⟨after, ?_, ?_⟩
    · rw [written]
      exact stored
    · rw [if_pos (by decide)] at same
      have length : zeroed.offset - 1 = buffer.text.startLine.contents.length := by
        rw [← @length_written zeroed, show zeroed.written = zeroed.text.contents from rfl, same,
          Text.append, List.length_append, List.length_singleton, Nat.add_sub_cancel]
      rw [result, length, same, Text.append, List.take_left]
  · rw [if_neg open_, if_pos (getLast?_text.mpr open_)]
    exact ⟨buffer, rfl, rfl⟩

/-- What an operation does to the text. -/
theorem perform_spec {op : Op} (inside : op.Inside buffer.text) :
    ∃ after, op.perform fresh buffer = some after ∧ after.text = op.edit buffer.text := by
  have whole : buffer.text.contents.length = buffer.offset := length_written
  cases op with
  | indenting doindent spaces level => exact ⟨_, rfl, rfl⟩
  | reserve nbytes => exact ⟨_, rfl, (reserve_text nbytes).1⟩
  | setsize size => exact store_nil (whole ▸ inside)
  | write buf => exact write_spec buf
  | writeByte b => exact writeByte_spec b
  | fill0 nbytes => exact append_spec (List.replicate nbytes 0)
  | writenl => exact writenl_spec
  | insert offset p => exact insert_spec p (whole ▸ inside)
  | prependstring string =>
    obtain ⟨after, inserted, same⟩ := @insert_spec fresh buffer 0 string (Nat.zero_le _)
    exact ⟨after, inserted, same⟩
  | bracket left right => exact bracket_spec left right
  | bracketAt i left j right => exact bracketAt_spec left right inside.1 (whole ▸ inside.2)
  | remove offset nbytes => exact remove_spec (whole ▸ inside)
  | peekChars => exact peekChars_spec

/-- The operations one after the other, each with what new storage holds. -/
def run : List (Op × (Nat → BitVec 8)) → OutBuffer → Option OutBuffer
  | [], buffer => some buffer
  | (op, fresh) :: calls, buffer => (op.perform fresh buffer).bind (run calls)

end OutBuffer

/-- The text after some operations. -/
def Text.edit (text : Text) (ops : List Op) : Text :=
  ops.foldl (fun text op => op.edit text) text

/-- The positions of each operation lie inside of the text that it finds. -/
def Text.Allows (text : Text) : List Op → Prop
  | [] => True
  | op :: ops => op.Inside text ∧ (op.edit text).Allows ops

/-- In every run a buffer holds the text that the operations build: it stays in its storage, growing
loses nothing, and what is written is indented where a line begins. -/
theorem outBuffer_holds_text {calls : List (Op × (Nat → BitVec 8))} {start : OutBuffer}
    (allowed : start.text.Allows (calls.map Prod.fst)) :
    ∃ after, OutBuffer.run calls start = some after ∧
      after.text = start.text.edit (calls.map Prod.fst) := by
  induction calls generalizing start with
  | nil => exact ⟨start, rfl, rfl⟩
  | cons call calls inductionHypothesis =>
    obtain ⟨inside, others⟩ := allowed
    obtain ⟨next, performed, same⟩ := @OutBuffer.perform_spec call.2 start call.1 inside
    rw [← same] at others
    obtain ⟨after, ran, result⟩ := inductionHypothesis others
    refine ⟨after, ?_, result.trans ?_⟩
    · rw [OutBuffer.run, performed, Option.bind_some, ran]
    · rw [same]
      rfl

/-- A line that begins with a tab, in brackets. -/
theorem outBuffer_holds_text_brackets : ∃ after,
    OutBuffer.run [(.indenting true false 1, fun _ => 0), (.write [0x61, 0x20], fun _ => 0),
        (.writenl, fun _ => 0), (.bracketAt 1 [0x28] 2 [0x29], fun _ => 0)]
      { data := [], offset := 0, inside := le_rfl } = some after ∧
      after.text.contents = [0x09, 0x28, 0x61, 0x29, 0x0A] := by
  obtain ⟨after, ran, same⟩ := @outBuffer_holds_text
    [(.indenting true false 1, fun _ => 0), (.write [0x61, 0x20], fun _ => 0),
      (.writenl, fun _ => 0), (.bracketAt 1 [0x28] 2 [0x29], fun _ => 0)]
    { data := [], offset := 0, inside := le_rfl }
      ⟨trivial, trivial, trivial, ⟨by decide, by decide⟩, trivial⟩
  exact ⟨after, ran, congrArg Text.contents same⟩

end LaserD.Common
