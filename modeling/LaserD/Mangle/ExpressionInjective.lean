/-
This file proves that template value arguments of one type that are represented by the same kind of
expression at every level have different texts, and that where one text goes on where another ends,
it goes on with digits only.

The proof follows the two expressions. Each member of a literal begins with a letter that is not the
one for a missing field, so the number of members ends where the first one begins, and a digit can
follow the last member only.
-/

import LaserD.Mangle.ExpressionTexts
import Mathlib.Data.List.Zip

namespace LaserD.Mangle

open NumberedTexts Root.Utf

/-! ### Strings -/

/-- A text begins with a letter, and not with that of a missing field. -/
def Starts (text : List Char) : Prop :=
  ∃ c rest, text = c :: rest ∧ c.isDigit = false ∧ c ≠ 'v'

theorem Starts.marked {text : List Char} (starts : Starts text) : Marked text := by
  obtain ⟨c, rest, rfl, noDigit, _⟩ := starts
  exact ⟨c, rest, rfl, noDigit⟩

/-- A string has a text. -/
theorem mangleString_starts (fresh : Nat → BitVec 8) (units : Units) :
    ∃ text, mangleString fresh units = some text ∧ Starts text := by
  cases units with
  | char q => exact ⟨_, rfl, 'a', _, rfl, by decide, by decide⟩
  | wchar slice =>
    obtain ⟨result, ends⟩ := decodeWide_isSome fresh slice slice.length 0 emptyBuffer (by omega)
    unfold mangleString
    dsimp only
    rw [ends, Option.bind_eq_bind, Option.bind_some]
    cases result with
    | none => exact ⟨_, rfl, 'A', _, rfl, by decide, by decide⟩
    | some tmp => exact ⟨_, rfl, 'w', _, rfl, by decide, by decide⟩
  | dchar slice =>
    unfold mangleString
    dsimp only
    rcases encodeWide_spec fresh slice emptyBuffer with ends | ⟨out, ends, _⟩
    · rw [ends]
      exact ⟨_, rfl, 'A', _, rfl, by decide, by decide⟩
    · rw [ends]
      exact ⟨_, rfl, 'd', _, rfl, by decide, by decide⟩
  | long units => exact ⟨_, rfl, 'A', _, rfl, by decide, by decide⟩

/-- The text of a string of two-byte units: that of an array, or the UTF-8 form of the code points
whose UTF-16 form the units are. -/
theorem mangleString_wchar {fresh : Nat → BitVec 8} {slice : List (BitVec 16)}
    (placed : (Units.wchar slice).Placed fresh) {text : List Char}
    (mangled : mangleString fresh (.wchar slice) = some text) :
    text = mangleAsArray (.wchar slice) ∨ ∃ cs : List Dchar,
      (∀ c ∈ cs, utfIsValidDchar c = true) ∧ slice = cs.flatMap unitsOf ∧
        text = mangleBytes 'w' (cs.flatMap bytesOf) := by
  obtain ⟨result, ends⟩ := decodeWide_isSome fresh slice slice.length 0 emptyBuffer (by omega)
  unfold mangleString at mangled
  dsimp only at mangled
  rw [ends, Option.bind_eq_bind, Option.bind_some] at mangled
  cases result with
  | none => exact Or.inl (Option.some.inj mangled).symm
  | some tmp =>
    obtain ⟨cs, valid, written, units⟩ :=
      decodeWide_spec fresh (placed tmp ends) slice.length 0 emptyBuffer tmp ends
    refine Or.inr ⟨cs, valid, units, ?_⟩
    rw [← Option.some.inj mangled, written]
    rfl

/-- The text of a string of four-byte units: that of an array, or their UTF-8 form. -/
theorem mangleString_dchar {fresh : Nat → BitVec 8} {slice : List (BitVec 32)} {text : List Char}
    (mangled : mangleString fresh (.dchar slice) = some text) :
    text = mangleAsArray (.dchar slice) ∨
      ((∀ c ∈ slice, utfIsValidDchar c = true) ∧
        text = mangleBytes 'd' (slice.flatMap bytesOf)) := by
  unfold mangleString at mangled
  dsimp only at mangled
  rcases encodeWide_spec fresh slice emptyBuffer with ends | ⟨out, ends, valid, written⟩
  · rw [ends, Option.bind_eq_bind, Option.bind_some] at mangled
    exact Or.inl (Option.some.inj mangled).symm
  · rw [ends, Option.bind_eq_bind, Option.bind_some] at mangled
    refine Or.inr ⟨valid, ?_⟩
    rw [← Option.some.inj mangled, written]
    rfl

/-- Strings of one type are told by their texts. -/
theorem tells_mangleString {fresh fresh' : Nat → BitVec 8} {units units' : Units}
    (sz : units.sz = units'.sz) (placed : units.Placed fresh) (placed' : units'.Placed fresh')
    {text text' : List Char} (mangled : mangleString fresh units = some text)
    (mangled' : mangleString fresh' units' = some text') : Tells text text' (units = units') := by
  have arrays : Tells (mangleAsArray units) (mangleAsArray units') (units = units') :=
    (tells_mangleAsArray units units').mono (indices_injective sz)
  cases units with
  | char q =>
    cases units' with
    | char q' =>
      rw [← Option.some.inj mangled, ← Option.some.inj mangled']
      exact (tells_mangleBytes 'a' q q').mono (congrArg Units.char)
    | wchar _ => exact absurd sz (by simp [Units.sz])
    | dchar _ => exact absurd sz (by simp [Units.sz])
    | long _ => exact absurd sz (by simp [Units.sz])
  | wchar slice =>
    cases units' with
    | char _ => exact absurd sz (by simp [Units.sz])
    | wchar slice' =>
      rcases mangleString_wchar placed mangled with rfl | ⟨cs, valid, units, rfl⟩ <;>
        rcases mangleString_wchar placed' mangled' with rfl | ⟨cs', valid', units', rfl⟩
      · exact arrays
      · exact Tells.of_ne (by decide)
      · exact Tells.of_ne (by decide)
      · refine (tells_mangleBytes 'w' _ _).mono fun same => ?_
        rw [units, units', flatMap_bytesOf_injective valid valid' same]
    | dchar _ => exact absurd sz (by simp [Units.sz])
    | long _ => exact absurd sz (by simp [Units.sz])
  | dchar slice =>
    cases units' with
    | char _ => exact absurd sz (by simp [Units.sz])
    | wchar _ => exact absurd sz (by simp [Units.sz])
    | dchar slice' =>
      rcases mangleString_dchar mangled with rfl | ⟨valid, rfl⟩ <;>
        rcases mangleString_dchar mangled' with rfl | ⟨valid', rfl⟩
      · exact arrays
      · exact Tells.of_ne (by decide)
      · exact Tells.of_ne (by decide)
      · refine (tells_mangleBytes 'd' _ _).mono fun same => ?_
        rw [flatMap_bytesOf_injective valid valid' same]
    | long _ => exact absurd sz (by simp [Units.sz])
  | long units =>
    cases units' with
    | char _ => exact absurd sz (by simp [Units.sz])
    | wchar _ => exact absurd sz (by simp [Units.sz])
    | dchar _ => exact absurd sz (by simp [Units.sz])
    | long units' =>
      rw [← Option.some.inj mangled, ← Option.some.inj mangled']
      exact arrays

/-! ### Expressions -/

section
variable (fresh : Nat → BitVec 8)

mutual

/-- An expression has a text. -/
theorem mangleExpression_starts : ∀ e : Expression,
    ∃ text, mangleExpression fresh e = some text ∧ Starts text
  | .integer value => by
    refine ⟨mangleInteger value, rfl, ?_⟩
    unfold mangleInteger
    split
    · exact ⟨'N', _, rfl, by decide, by decide⟩
    · exact ⟨'i', _, rfl, by decide, by decide⟩
  | .null => ⟨['n'], rfl, 'n', [], rfl, by decide, by decide⟩
  | .string units => mangleString_starts fresh units
  | .array elements => by
    obtain ⟨texts, mangled⟩ := mangleElements_isSome elements
    refine ⟨'A' :: (print elements.length ++ texts), ?_, 'A', _, rfl, by decide, by decide⟩
    unfold mangleExpression
    rw [mangled]
    rfl
  | .assoc entries => by
    obtain ⟨texts, mangled⟩ := mangleEntries_isSome entries
    refine ⟨'A' :: (print entries.length ++ texts), ?_, 'A', _, rfl, by decide, by decide⟩
    unfold mangleExpression
    rw [mangled]
    rfl
  | .struct_ elements => by
    obtain ⟨texts, mangled⟩ := mangleFields_isSome elements
    refine ⟨'S' :: (print elements.length ++ texts), ?_, 'S', _, rfl, by decide, by decide⟩
    unfold mangleExpression
    rw [mangled]
    rfl

theorem mangleElements_isSome : ∀ es : List Expression,
    ∃ texts, mangleElements fresh es = some texts
  | [] => ⟨[], rfl⟩
  | e :: es => by
    obtain ⟨text, mangled, _⟩ := mangleExpression_starts e
    obtain ⟨texts, rest⟩ := mangleElements_isSome es
    refine ⟨text ++ texts, ?_⟩
    unfold mangleElements
    rw [mangled, rest]
    rfl

theorem mangleEntries_isSome : ∀ entries : List (Expression × Expression),
    ∃ texts, mangleEntries fresh entries = some texts
  | [] => ⟨[], rfl⟩
  | (key, value) :: entries => by
    obtain ⟨first, mangledKey, _⟩ := mangleExpression_starts key
    obtain ⟨second, mangledValue, _⟩ := mangleExpression_starts value
    obtain ⟨texts, rest⟩ := mangleEntries_isSome entries
    refine ⟨first ++ second ++ texts, ?_⟩
    unfold mangleEntries
    rw [mangledKey, mangledValue, rest]
    rfl

theorem mangleFields_isSome : ∀ elements : List (Option Expression),
    ∃ texts, mangleFields fresh elements = some texts
  | [] => ⟨[], rfl⟩
  | some ex :: elements => by
    obtain ⟨text, mangled, _⟩ := mangleExpression_starts ex
    obtain ⟨texts, rest⟩ := mangleFields_isSome elements
    refine ⟨text ++ texts, ?_⟩
    unfold mangleFields
    rw [mangled, rest]
    rfl
  | none :: elements => by
    obtain ⟨texts, rest⟩ := mangleFields_isSome elements
    refine ⟨'v' :: texts, ?_⟩
    unfold mangleFields
    rw [rest]
    rfl

end

/-- The text of an expression. -/
def textOf (e : Expression) : List Char :=
  (mangleExpression fresh e).getD []

/-- The text of a field, which may be missing. -/
def fieldText : Option Expression → List Char
  | some ex => textOf fresh ex
  | none => ['v']

theorem mangleExpression_eq (e : Expression) :
    mangleExpression fresh e = some (textOf fresh e) ∧ Starts (textOf fresh e) := by
  obtain ⟨text, mangled, starts⟩ := mangleExpression_starts fresh e
  unfold textOf
  rw [mangled]
  exact ⟨rfl, starts⟩

theorem mangleElements_eq (es : List Expression) :
    mangleElements fresh es = some (es.flatMap (textOf fresh)) := by
  induction es with
  | nil => rfl
  | cons e es inductionHypothesis =>
    unfold mangleElements
    rw [(mangleExpression_eq fresh e).1, inductionHypothesis]
    rfl

theorem mangleEntries_eq (entries : List (Expression × Expression)) :
    mangleEntries fresh entries =
      some (entries.flatMap fun p => textOf fresh p.1 ++ textOf fresh p.2) := by
  induction entries with
  | nil => rfl
  | cons p entries inductionHypothesis =>
    obtain ⟨key, value⟩ := p
    unfold mangleEntries
    rw [(mangleExpression_eq fresh key).1, (mangleExpression_eq fresh value).1,
      inductionHypothesis]
    rfl

theorem mangleFields_eq (elements : List (Option Expression)) :
    mangleFields fresh elements = some (elements.flatMap (fieldText fresh)) := by
  induction elements with
  | nil => rfl
  | cons field elements inductionHypothesis =>
    cases field with
    | none =>
      unfold mangleFields
      rw [inductionHypothesis]
      rfl
    | some ex =>
      unfold mangleFields
      rw [(mangleExpression_eq fresh ex).1, inductionHypothesis]
      rfl

theorem textOf_array (elements : List Expression) : textOf fresh (.array elements) =
    'A' :: (print elements.length ++ elements.flatMap (textOf fresh)) := by
  refine Option.some.inj ((mangleExpression_eq fresh _).1.symm.trans ?_)
  unfold mangleExpression
  rw [mangleElements_eq]
  rfl

theorem textOf_assoc (entries : List (Expression × Expression)) : textOf fresh (.assoc entries) =
    'A' :: (print entries.length ++
      entries.flatMap fun p => textOf fresh p.1 ++ textOf fresh p.2) := by
  refine Option.some.inj ((mangleExpression_eq fresh _).1.symm.trans ?_)
  unfold mangleExpression
  rw [mangleEntries_eq]
  rfl

theorem textOf_struct (elements : List (Option Expression)) : textOf fresh (.struct_ elements) =
    'S' :: (print elements.length ++ elements.flatMap (fieldText fresh)) := by
  refine Option.some.inj ((mangleExpression_eq fresh _).1.symm.trans ?_)
  unfold mangleExpression
  rw [mangleFields_eq]
  rfl

theorem marked_textOf (e : Expression) : Marked (textOf fresh e) :=
  (mangleExpression_eq fresh e).2.marked

theorem marked_pair (p : Expression × Expression) :
    Marked (textOf fresh p.1 ++ textOf fresh p.2) := by
  obtain ⟨c, rest, starts, noDigit⟩ := marked_textOf fresh p.1
  exact ⟨c, rest ++ textOf fresh p.2, by rw [starts]; rfl, noDigit⟩

theorem marked_fieldText (field : Option Expression) : Marked (fieldText fresh field) := by
  cases field with
  | none => exact ⟨'v', [], rfl, by decide⟩
  | some ex => exact marked_textOf fresh ex

end

/-- Values of the same kind at every level are told by their texts. -/
theorem tells_textOf (fresh fresh' : Nat → BitVec 8) {x y : Expression} (same : SameKind x y)
    (placed : Placed fresh x) (placed' : Placed fresh' y) :
    Tells (textOf fresh x) (textOf fresh' y) (x = y) := by
  induction same with
  | integer v w => exact (tells_mangleInteger v w).mono (congrArg Expression.integer)
  | null => exact (Tells.of_length rfl).mono fun _ => rfl
  | @string units units' sz =>
    cases placed with
    | string placed =>
      cases placed' with
      | string placed' =>
        exact (tells_mangleString sz placed placed' (mangleExpression_eq fresh (.string units)).1
          (mangleExpression_eq fresh' (.string units')).1).mono (congrArg Expression.string)
  | array _ inductionHypothesis =>
    cases placed with
    | array placed =>
      cases placed' with
      | array placed' =>
        rw [textOf_array, textOf_array]
        refine (tells_list 'A' (fun e _ => marked_textOf fresh e)
          (fun e _ => marked_textOf fresh' e) fun x y member => ?_).mono fun same =>
            congrArg Expression.array (List.forall₂_eq_eq_eq ▸ same)
        have members := List.of_mem_zip member
        exact inductionHypothesis x y member (placed x members.1) (placed' y members.2)
  | assoc _ _ keysHypothesis valuesHypothesis =>
    cases placed with
    | assoc keys values =>
      cases placed' with
      | assoc keys' values' =>
        rw [textOf_assoc, textOf_assoc]
        refine (tells_list 'A' (fun p _ => marked_pair fresh p) (fun p _ => marked_pair fresh' p)
          fun p q member => ?_).mono fun same =>
            congrArg Expression.assoc (List.forall₂_eq_eq_eq ▸ same)
        have members := List.of_mem_zip member
        refine ((keysHypothesis p q member (keys p members.1) (keys' q members.2)).append
          (marked_textOf fresh p.2) (marked_textOf fresh' q.2) fun _ =>
            valuesHypothesis p q member (values p members.1) (values' q members.2)).mono ?_
        exact fun facts => Prod.ext facts.1 facts.2
  | struct_ _ inductionHypothesis =>
    cases placed with
    | struct_ placed =>
      cases placed' with
      | struct_ placed' =>
        rw [textOf_struct, textOf_struct]
        refine (tells_list 'S' (fun f _ => marked_fieldText fresh f)
          (fun f _ => marked_fieldText fresh' f) fun x y member => ?_).mono fun same =>
            congrArg Expression.struct_ (List.forall₂_eq_eq_eq ▸ same)
        have members := List.of_mem_zip member
        cases x with
        | none =>
          cases y with
          | none => exact (Tells.of_length rfl).mono fun _ => rfl
          | some y =>
            obtain ⟨c, rest, starts, _, differ⟩ := (mangleExpression_eq fresh' y).2
            show Tells ['v'] (textOf fresh' y) _
            rw [starts]
            exact Tells.of_ne (Ne.symm differ)
        | some x =>
          cases y with
          | none =>
            obtain ⟨c, rest, starts, _, differ⟩ := (mangleExpression_eq fresh x).2
            show Tells (textOf fresh x) ['v'] _
            rw [starts]
            exact Tells.of_ne differ
          | some y =>
            exact (inductionHypothesis x y member (placed x members.1) (placed' y members.2)).mono
              (congrArg some)

theorem SameKind.symm {x y : Expression} (same : SameKind x y) : SameKind y x := by
  have swapped : ∀ {α : Type} {as bs : List α} {a b : α}, (a, b) ∈ as.zip bs →
      (b, a) ∈ bs.zip as := by
    intro α as bs a b member
    rw [← List.zip_swap]
    exact List.mem_map.mpr ⟨(a, b), member, rfl⟩
  induction same with
  | integer v w => exact .integer w v
  | null => exact .null
  | string sz => exact .string sz.symm
  | array _ inductionHypothesis =>
    exact .array fun x y member => inductionHypothesis y x (swapped member)
  | assoc _ _ keysHypothesis valuesHypothesis =>
    exact .assoc (fun p q member => keysHypothesis q p (swapped member))
      fun p q member => valuesHypothesis q p (swapped member)
  | struct_ _ inductionHypothesis =>
    exact .struct_ fun x y member => inductionHypothesis y x (swapped member)

/-- The texts of two different template value arguments of one type, represented by the same kind of
expression at every level, are different; where one is a prefix of the other, the rest is digits. -/
theorem mangleExpression_injective (fresh fresh' : Nat → BitVec 8) {x y : Expression}
    (same : SameKind x y) (placed : Placed fresh x) (placed' : Placed fresh' y) (differ : x ≠ y) :
    ∃ s t, mangleExpression fresh x = some s ∧ mangleExpression fresh' y = some t ∧ s ≠ t ∧
      (∀ rest, s ++ rest = t → ∀ c ∈ rest, c.isDigit = true) ∧
      ∀ rest, t ++ rest = s → ∀ c ∈ rest, c.isDigit = true := by
  have tells := tells_textOf fresh fresh' same placed placed'
  have tells' := tells_textOf fresh' fresh same.symm placed' placed
  exact ⟨_, _, (mangleExpression_eq fresh x).1, (mangleExpression_eq fresh' y).1,
    fun texts => differ (tells.of_eq texts), fun _ starts => tells.digits_of_prefix starts,
    fun _ starts => tells'.digits_of_prefix starts⟩

/-- Strings of one unit and no integers at the end. -/
theorem mangleExpression_injective_units : ∃ s t,
    mangleExpression (fun _ => 0) (.array [.string (.wchar [0x61#16]), .integer 1#64]) = some s ∧
      mangleExpression (fun _ => 0) (.array [.string (.wchar [0x62#16]), .integer 1#64]) = some t ∧
      s ≠ t ∧ (∀ rest, s ++ rest = t → ∀ c ∈ rest, c.isDigit = true) ∧
      ∀ rest, t ++ rest = s → ∀ c ∈ rest, c.isDigit = true := by
  have placed : ∀ u : BitVec 16, Placed (fun _ => 0)
      (.array [.string (.wchar [u]), .integer 1#64]) := by
    intro u
    refine .array fun e member => ?_
    rcases List.mem_cons.mp member with rfl | last
    · refine .string fun _ _ i => ?_
      rintro ⟨_, _, _, units, _⟩
      have lengths := congrArg List.length units
      rw [List.length_drop, List.length_singleton, List.length_cons, List.length_cons] at lengths
      omega
    · rw [List.mem_singleton.mp last]
      exact .integer 1#64
  refine mangleExpression_injective _ _ (.array fun x y member => ?_) (placed 0x61) (placed 0x62)
    fun same => ?_
  · rcases List.mem_cons.mp member with first | second
    · obtain ⟨rfl, rfl⟩ := Prod.mk.inj first
      exact .string rfl
    · obtain ⟨rfl, rfl⟩ := Prod.mk.inj (List.mem_singleton.mp second)
      exact .integer _ _
  · exact absurd (Units.wchar.inj (Expression.string.inj (List.cons.inj
      (Expression.array.inj same)).1)) (by decide)

/-- The text of an integer goes on where that of another ends. -/
theorem mangleInteger_goes_on :
    SameKind (.integer 1#64) (.integer 12#64) ∧ Expression.integer 1#64 ≠ .integer 12#64 ∧
      mangleExpression (fun _ => 0) (.integer 1#64) = some ['i', '1'] ∧
      mangleExpression (fun _ => 0) (.integer 12#64) = some (['i', '1'] ++ ['2']) := by
  refine ⟨.integer _ _, fun same => ?_, by decide, by decide⟩
  exact absurd (Expression.integer.inj same) (by decide)

end LaserD.Mangle
