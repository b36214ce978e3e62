/-
This file proves that template value arguments of one type are told by their texts.

Every text begins with a letter, so that a number in the middle of a text ends where the next text
begins, and only an integer at the end of a text can be gone on with. A string of wide units is
written in UTF-8 exactly when all of it is decoded, and the units are those of the code points that
were decoded.
-/

import LaserD.Lib.NumberedTexts
import LaserD.Mangle.Expressions

namespace LaserD.Mangle

open NumberedTexts Root.Utf

/-! ### Integers and bytes -/

/-- Integers are told by their sign and their digits. -/
theorem tells_mangleInteger (v w : BitVec 64) :
    Tells (mangleInteger v) (mangleInteger w) (v = w) := by
  unfold mangleInteger print
  by_cases negative : v.toInt < 0
  · rw [if_pos negative]
    by_cases negative' : w.toInt < 0
    · rw [if_pos negative']
      refine ((tells_toDigits _ _).cons 'N').mono fun same => ?_
      exact BitVec.neg_inj.mp (BitVec.eq_of_toNat_eq same)
    · rw [if_neg negative']
      exact Tells.of_ne (by decide)
  · rw [if_neg negative]
    by_cases negative' : w.toInt < 0
    · rw [if_pos negative']
      exact Tells.of_ne (by decide)
    · rw [if_neg negative']
      exact ((tells_toDigits _ _).cons 'i').mono BitVec.eq_of_toNat_eq

/-- The number of a hexadecimal digit. -/
def hexValue (c : Char) : Nat :=
  if c.isDigit then c.toNat - '0'.toNat else c.toNat - 'a'.toNat + 10

theorem hexValue_digits : ∀ c : BitVec 8,
    16 * hexValue (hexDigit ((c >>> 4) &&& 0xF#8) false) +
      hexValue (hexDigit (c &&& 0xF#8) false) = c.toNat := by
  decide

/-- Bytes are told by their hexadecimal digits. -/
theorem writeHexString_injective {p q : List (BitVec 8)}
    (same : writeHexString p false = writeHexString q false) : p = q := by
  induction p generalizing q with
  | nil =>
    cases q with
    | nil => rfl
    | cons d q => exact absurd same (List.cons_ne_nil _ _).symm
  | cons c p inductionHypothesis =>
    cases q with
    | nil => exact absurd same (List.cons_ne_nil _ _)
    | cons d q =>
      obtain ⟨high, rest⟩ := List.cons.inj same
      obtain ⟨low, rest⟩ := List.cons.inj rest
      have bytes : c = d := by
        refine BitVec.eq_of_toNat_eq ?_
        rw [← hexValue_digits c, ← hexValue_digits d, high, low]
      rw [bytes, inductionHypothesis rest]

theorem length_writeHexString (q : List (BitVec 8)) :
    (writeHexString q false).length = 2 * q.length := by
  induction q with
  | nil => rfl
  | cons c q inductionHypothesis =>
    show (writeHexString q false).length + 2 = 2 * (q.length + 1)
    rw [inductionHypothesis]
    omega

/-- The bytes of a string are told by their number and their digits. -/
theorem tells_mangleBytes (m : Char) (p q : List (BitVec 8)) :
    Tells (mangleBytes m p) (mangleBytes m q) (p = q) := by
  have marked : ∀ text, Marked ('_' :: text) := fun text => ⟨'_', text, rfl, rfl⟩
  refine ((tells_toDigits p.length q.length).append (marked _) (marked _) fun lengths =>
    (Tells.of_length ?_).cons '_').cons m |>.mono fun facts => writeHexString_injective facts.2
  rw [length_writeHexString, length_writeHexString, lengths]

theorem marked_mangleInteger (v : BitVec 64) : Marked (mangleInteger v) := by
  unfold mangleInteger
  split
  · exact ⟨'N', _, rfl, rfl⟩
  · exact ⟨'i', _, rfl, rfl⟩

/-- A list whose length is written before the texts of its members. -/
theorem tells_list {α β : Type} {left : α → List Char} {right : β → List Char}
    {fact : α → β → Prop} {as : List α} {bs : List β} (c : Char)
    (marked : ∀ a ∈ as, Marked (left a)) (marked' : ∀ b ∈ bs, Marked (right b))
    (each : ∀ a b, (a, b) ∈ as.zip bs → Tells (left a) (right b) (fact a b)) :
    Tells (c :: (print as.length ++ as.flatMap left)) (c :: (print bs.length ++ bs.flatMap right))
      (List.Forall₂ fact as bs) := by
  have marks : ∀ {γ : Type} {text : γ → List Char} (cs : List γ), (∀ c ∈ cs, Marked (text c)) →
      (cs.length = 0 → cs.flatMap text = []) ∧ (cs.length ≠ 0 → Marked (cs.flatMap text)) := by
    intro γ text cs marked
    cases cs with
    | nil => exact ⟨fun _ => rfl, fun nonzero => absurd rfl nonzero⟩
    | cons first cs =>
      refine ⟨fun zero => absurd zero (Nat.succ_ne_zero _), fun _ => ?_⟩
      obtain ⟨d, rest, starts, noDigit⟩ := marked first List.mem_cons_self
      exact ⟨d, rest ++ cs.flatMap text, by rw [List.flatMap_cons, starts]; rfl, noDigit⟩
  refine ((tells_numbered (marks as marked).1 (marks as marked).2 (marks bs marked').1
    (marks bs marked').2 fun lengths => tells_flatten lengths ?_).cons c).mono And.right
  rintro ⟨a, b⟩ member
  have members := List.of_mem_zip member
  exact ⟨marked a members.1, marked' b members.2, each a b member⟩

theorem length_indices (units : Units) : units.indices.length = units.len := by
  cases units with
  | char units => exact List.length_map ..
  | wchar units => exact List.length_map ..
  | dchar units => exact List.length_map ..
  | long units => rfl

/-- The units of a string that is written as an array. -/
theorem tells_mangleAsArray (units units' : Units) :
    Tells (mangleAsArray units) (mangleAsArray units') (units.indices = units'.indices) := by
  have told : Tells ('A' :: (print units.indices.length ++ units.indices.flatMap mangleInteger))
      ('A' :: (print units'.indices.length ++ units'.indices.flatMap mangleInteger))
      (List.Forall₂ (fun v w : BitVec 64 => v = w) units.indices units'.indices) :=
    tells_list 'A' (fun v _ => marked_mangleInteger v) (fun v _ => marked_mangleInteger v)
      fun v w _ => tells_mangleInteger v w
  rw [length_indices, length_indices] at told
  exact told.mono fun same => List.forall₂_eq_eq_eq ▸ same

/-- The units are those of the array, for strings of one size. -/
theorem indices_injective {units units' : Units} (sz : units.sz = units'.sz)
    (same : units.indices = units'.indices) : units = units' := by
  have widened : ∀ {w : Nat} {us vs : List (BitVec w)}, w ≤ 64 →
      us.map (·.setWidth 64) = vs.map (·.setWidth 64) → us = vs := by
    intro w us vs narrow same
    refine List.map_injective_iff.mpr (fun u v widths => ?_) same
    have values := congrArg BitVec.toNat widths
    have bound : ∀ x : BitVec w, x.toNat < 2 ^ 64 := fun x =>
      Nat.lt_of_lt_of_le x.isLt (Nat.pow_le_pow_right (by decide) narrow)
    rw [BitVec.toNat_setWidth, BitVec.toNat_setWidth, Nat.mod_eq_of_lt (bound u),
      Nat.mod_eq_of_lt (bound v)] at values
    exact BitVec.eq_of_toNat_eq values
  cases units <;> cases units' <;> first
    | exact congrArg Units.char (widened (by decide) same)
    | exact congrArg Units.wchar (widened (by decide) same)
    | exact congrArg Units.dchar (widened (by decide) same)
    | exact congrArg Units.long same
    | exact absurd sz (by simp [Units.sz])

/-! ### UTF-8 -/

/-- The bytes of a code point. -/
def bytesOf (c : Dchar) : List (BitVec 8) :=
  (utfEncodeChar c).getD []

/-- The units of two bytes of a code point. -/
def unitsOf (c : Dchar) : List (BitVec 16) :=
  (utfEncodeWchar c).getD []

theorem bytesOf_spec {c : Dchar} (valid : utfIsValidDchar c = true) :
    utfEncodeChar c = some (bytesOf c) ∧ bytesOf c ≠ [] := by
  obtain ⟨units, encoded, numbers, _⟩ := utfEncodeChar_spec ((utfIsValidDchar_iff c).mp valid)
  unfold bytesOf
  rw [encoded]
  refine ⟨rfl, ?_⟩
  show units ≠ []
  rintro rfl
  unfold utf8 at numbers
  split at numbers
  · exact absurd numbers (by simp)
  split at numbers
  · exact absurd numbers (by simp)
  split at numbers
  · exact absurd numbers (by simp)
  · exact absurd numbers (by simp)

/-- Code points are told by their bytes. -/
theorem flatMap_bytesOf_injective {cs ds : List Dchar}
    (valid : ∀ c ∈ cs, utfIsValidDchar c = true) (valid' : ∀ d ∈ ds, utfIsValidDchar d = true)
    (same : cs.flatMap bytesOf = ds.flatMap bytesOf) : cs = ds := by
  induction cs generalizing ds with
  | nil =>
    cases ds with
    | nil => rfl
    | cons d ds =>
      have none := (List.append_eq_nil_iff.mp same.symm).1
      exact absurd none (bytesOf_spec (valid' d List.mem_cons_self)).2
  | cons c cs inductionHypothesis =>
    obtain ⟨first, rest⟩ := List.forall_mem_cons.mp valid
    cases ds with
    | nil =>
      have none := (List.append_eq_nil_iff.mp same).1
      exact absurd none (bytesOf_spec first).2
    | cons d ds =>
      obtain ⟨first', rest'⟩ := List.forall_mem_cons.mp valid'
      rw [List.flatMap_cons, List.flatMap_cons] at same
      have inside : 0 < (bytesOf c ++ cs.flatMap bytesOf).length := by
        rw [List.length_append]
        have positive := List.length_pos_of_ne_nil (bytesOf_spec first).2
        omega
      obtain ⟨⟨result, _, exactly, _⟩, _⟩ := utf8_exact _ 0 inside
      have left := (exactly c).mpr ⟨first, bytesOf c, (bytesOf_spec first).1, _, rfl⟩
      have right := (exactly d).mpr ⟨first', bytesOf d, (bytesOf_spec first').1, _, same.symm⟩
      have heads : c = d := left.2.symm.trans right.2
      rw [heads] at same ⊢
      rw [inductionHypothesis rest rest' (List.append_cancel_left same)]

/-! ### Wide strings -/

/-- Decoding advances, and what is decoded is a code point. -/
theorem utfDecodeWchar_total {s : List (BitVec 16)} {i : Nat} (inside : i < s.length) :
    ∃ decoded, utfDecodeWchar s i = some decoded ∧ i < decoded.ridx ∧
      (decoded.error = none → utfIsValidDchar decoded.rresult = true) := by
  obtain ⟨u, rest, units⟩ : ∃ u rest, s.drop i = u :: rest :=
    ⟨_, _, List.drop_eq_getElem_cons inside⟩
  by_cases single : IsScalar u.toNat
  · refine ⟨_, utfDecodeWchar_single units single, Nat.lt_succ_self i, fun _ => ?_⟩
    have bound := u.isLt
    rw [utfIsValidDchar_iff, BitVec.toNat_setWidth, Nat.mod_eq_of_lt (by omega)]
    exact single
  have bound := u.isLt
  rw [IsScalar] at single
  by_cases low : u.toNat ≤ 0xDBFF
  · rcases utfDecodeWchar_pair units (by omega) low with ⟨_, message, failed⟩ |
      ⟨u2, further, _, ⟨_, message, failed⟩ | ⟨_, value, _, made⟩⟩
    · exact ⟨_, failed, Nat.lt_succ_self i,
        fun done => absurd done.symm (Option.some_ne_none _).symm⟩
    · exact ⟨_, failed, Nat.lt_succ_self i,
        fun done => absurd done.symm (Option.some_ne_none _).symm⟩
    · by_cases scalar : IsScalar value.toNat
      · rw [if_pos scalar] at made
        exact ⟨_, made, by simp, fun _ => (utfIsValidDchar_iff value).mpr scalar⟩
      · rw [if_neg scalar] at made
        exact ⟨_, made, by simp, fun done => absurd done.symm (Option.some_ne_none _).symm⟩
  · exact ⟨_, utfDecodeWchar_unpaired units (by omega) (by omega), Nat.lt_succ_self i,
      fun done => absurd done.symm (Option.some_ne_none _).symm⟩

section
variable (fresh : Nat → BitVec 8)

/-- The loop over units of two bytes ends. -/
theorem decodeWide_isSome (slice : List (BitVec 16)) : ∀ (fuel u : Nat) (tmp : OutBuffer),
    slice.length ≤ u + fuel → ∃ result, decodeWide fresh slice fuel u tmp = some result := by
  intro fuel
  induction fuel with
  | zero =>
    intro u tmp enough
    exact ⟨some tmp, if_neg (Nat.not_lt.mpr enough)⟩
  | succ fuel inductionHypothesis =>
    intro u tmp enough
    by_cases inside : u < slice.length
    · obtain ⟨decoded, result, later, valid⟩ := utfDecodeWchar_total inside
      unfold decodeWide
      rw [if_pos inside, result, Option.bind_eq_bind, Option.bind_some]
      cases error : decoded.error with
      | some message => exact ⟨none, rfl⟩
      | none =>
        obtain ⟨_, after, _, writes, _⟩ := tmp.writeUTF8_spec fresh (valid error)
        dsimp only
        rw [writes, Option.bind_eq_bind, Option.bind_some]
        exact inductionHypothesis decoded.ridx after (by omega)
    · exact ⟨some tmp, if_neg inside⟩

/-- What the loop over units of two bytes has written is the UTF-8 form of the code points whose
UTF-16 form the units are. -/
theorem decodeWide_spec {slice : List (BitVec 16)} (placed : ∀ i, ¬ Displaced slice i) :
    ∀ (fuel u : Nat) (tmp out : OutBuffer), decodeWide fresh slice fuel u tmp = some (some out) →
      ∃ cs : List Dchar, (∀ c ∈ cs, utfIsValidDchar c = true) ∧
        out.written = tmp.written ++ cs.flatMap bytesOf ∧ slice.drop u = cs.flatMap unitsOf := by
  intro fuel
  have ended : ∀ (u : Nat) (tmp out : OutBuffer), ¬ u < slice.length → some tmp = some out →
      ∃ cs : List Dchar, (∀ c ∈ cs, utfIsValidDchar c = true) ∧
        out.written = tmp.written ++ cs.flatMap bytesOf ∧ slice.drop u = cs.flatMap unitsOf := by
    intro u tmp out outside same
    refine ⟨[], fun _ member => absurd member List.not_mem_nil, ?_, ?_⟩
    · rw [Option.some.inj same]
      exact (List.append_nil _).symm
    · exact List.drop_eq_nil_of_le (Nat.not_lt.mp outside)
  induction fuel with
  | zero =>
    intro u tmp out result
    unfold decodeWide at result
    by_cases inside : u < slice.length
    · rw [if_pos inside] at result
      exact absurd result.symm (Option.some_ne_none _)
    · rw [if_neg inside] at result
      exact ended u tmp out inside (Option.some.inj result)
  | succ fuel inductionHypothesis =>
    intro u tmp out result
    unfold decodeWide at result
    by_cases inside : u < slice.length
    · obtain ⟨decoded, read, exactly, index, _⟩ := (wcharExact_iff slice u inside).mpr (placed u)
      rw [if_pos inside, read, Option.bind_eq_bind, Option.bind_some] at result
      cases error : decoded.error with
      | some message =>
        rw [error] at result
        exact absurd (Option.some.inj result).symm (Option.some_ne_none _)
      | none =>
        rw [error] at result
        dsimp only at result
        obtain ⟨valid, units, encoded, starts⟩ := (exactly decoded.rresult).mp ⟨error, rfl⟩
        obtain ⟨units', encoded', _, length⟩ :=
          utfEncodeWchar_spec ((utfIsValidDchar_iff _).mp valid)
        obtain rfl : units = units' := Option.some.inj (encoded.symm.trans encoded')
        obtain ⟨bytes, after, bytesEncoded, writes, written⟩ := tmp.writeUTF8_spec fresh valid
        rw [writes, Option.bind_eq_bind, Option.bind_some] at result
        obtain ⟨cs, validRest, writtenRest, unitsRest⟩ :=
          inductionHypothesis decoded.ridx after out result
        refine ⟨decoded.rresult :: cs, List.forall_mem_cons.mpr ⟨valid, validRest⟩, ?_, ?_⟩
        · rw [writtenRest, written, List.flatMap_cons, List.append_assoc]
          unfold bytesOf
          rw [bytesEncoded]
          rfl
        · obtain ⟨rest, whole⟩ := starts
          rw [index error, length, ← List.drop_drop, ← whole, List.drop_left] at unitsRest
          rw [← whole, unitsRest, List.flatMap_cons]
          unfold unitsOf
          rw [encoded]
          rfl
    · rw [if_neg inside] at result
      exact ended u tmp out inside (Option.some.inj result)

/-- The loop over units of four bytes ends; what it has written is the UTF-8 form of the units. -/
theorem encodeWide_spec (slice : List (BitVec 32)) : ∀ tmp : OutBuffer,
    encodeWide fresh slice tmp = some none ∨
    ∃ out, encodeWide fresh slice tmp = some (some out) ∧
      (∀ c ∈ slice, utfIsValidDchar c = true) ∧
        out.written = tmp.written ++ slice.flatMap bytesOf := by
  induction slice with
  | nil =>
    intro tmp
    exact Or.inr ⟨tmp, rfl, fun _ member => absurd member List.not_mem_nil,
      (List.append_nil _).symm⟩
  | cons c slice inductionHypothesis =>
    intro tmp
    unfold encodeWide
    cases valid : utfIsValidDchar c with
    | false => exact Or.inl rfl
    | true =>
      obtain ⟨bytes, after, encoded, writes, written⟩ := tmp.writeUTF8_spec fresh valid
      rw [writes, Option.bind_eq_bind, Option.bind_some]
      rcases inductionHypothesis after with failed | ⟨out, result, validRest, writtenRest⟩
      · exact Or.inl failed
      · refine Or.inr ⟨out, result, List.forall_mem_cons.mpr ⟨valid, validRest⟩, ?_⟩
        rw [writtenRest, written, List.flatMap_cons, List.append_assoc]
        unfold bytesOf
        rw [encoded]
        rfl

end

end LaserD.Mangle
