/-
This file shows of each part of a mangled type that is not itself a type that it is read back:
qualifiers, attributes, storage classes, references, identifiers and local numbers. Each of
them ends where the next letter cannot belong to it.
-/

import LaserD.Mangle.Canonical
import LaserD.Mangle.Reader

namespace LaserD.Mangle

open Numerals

variable {text : List Char} {pos : Nat}

/-! ### Qualifiers -/

/-- No qualifier begins at a position. -/
structure NotMod (text : List Char) (pos : Nat) : Prop where
  notConst : text[pos]? ≠ some 'x'
  notImmutable : text[pos]? ≠ some 'y'
  notShared : text[pos]? ≠ some 'O'
  notWild : text[pos]? = some 'N' → text[pos + 1]? ≠ some 'g'

theorem NotMod.readMod_eq (notMod : NotMod text pos) : readMod text pos = (none, pos) := by
  obtain ⟨notConst, notImmutable, notShared, notWild⟩ := notMod
  rw [readMod]
  split
  · contradiction
  · contradiction
  · contradiction
  · rw [if_neg (notWild ‹_›)]
  · rfl

theorem readMod_text {mod : Mod} (stands : Stands text pos mod.text)
    (notMod : NotMod text (pos + mod.text.length)) :
    readMod text pos = (if mod = .none then none else some mod, pos + mod.text.length) := by
  obtain ⟨notConst, notImmutable, notShared, notWild⟩ := notMod
  cases mod with
  | none => exact NotMod.readMod_eq ⟨notConst, notImmutable, notShared, notWild⟩
  | const_ =>
    have first := (stands_cons.mp stands).1
    rw [readMod, first]
    rfl
  | immutable_ =>
    have first := (stands_cons.mp stands).1
    rw [readMod, first]
    rfl
  | shared_ =>
    have first := (stands_cons.mp stands).1
    rw [readMod, first]
    have notX : text[pos + 1]? ≠ some 'x' := notConst
    have notNg : ¬ (text[pos + 1]? = some 'N' ∧ text[pos + 2]? = some 'g') :=
      fun wild => notWild wild.1 wild.2
    simp only
    rw [if_neg notX, if_neg notNg]
    rfl
  | sharedConst =>
    obtain ⟨first, rest⟩ := stands_cons.mp stands
    rw [readMod, first]
    rw [if_pos (stands_cons.mp rest).1]
    rfl
  | wild =>
    obtain ⟨first, rest⟩ := stands_cons.mp stands
    have notX : text[pos + 2]? ≠ some 'x' := notConst
    rw [readMod, first]
    simp only
    rw [if_pos (stands_cons.mp rest).1, if_neg notX]
    rfl
  | wildconst =>
    obtain ⟨first, rest⟩ := stands_cons.mp stands
    obtain ⟨second, last⟩ := stands_cons.mp rest
    rw [readMod, first]
    rw [if_pos second, if_pos (stands_cons.mp last).1]
    rfl
  | sharedWild =>
    obtain ⟨first, rest⟩ := stands_cons.mp stands
    obtain ⟨second, last⟩ := stands_cons.mp rest
    have third := (stands_cons.mp last).1
    have notX : text[pos + 1]? ≠ some 'x' := by rw [second]; decide
    have notX' : text[pos + 3]? ≠ some 'x' := notConst
    rw [readMod, first]
    simp only
    rw [if_neg notX, if_pos ⟨second, third⟩, if_neg notX']
    rfl
  | sharedWildconst =>
    obtain ⟨first, rest⟩ := stands_cons.mp stands
    obtain ⟨second, last⟩ := stands_cons.mp rest
    obtain ⟨third, fourth⟩ := stands_cons.mp last
    have notX : text[pos + 1]? ≠ some 'x' := by rw [second]; decide
    rw [readMod, first]
    rw [if_neg notX, if_pos ⟨second, third⟩, if_pos (stands_cons.mp fourth).1]
    rfl

/-- Qualifiers that are written as far as they do not apply already. -/
theorem readMod_under {mask mod : Mod} (stands : Stands text pos (mask.under mod))
    (notMod : NotMod text (pos + (mask.under mod).length)) :
    readMod text pos =
      (if mask = mod ∨ mod = .none then none else some mod, pos + (mask.under mod).length) := by
  rw [Mod.under] at stands notMod ⊢
  by_cases same : mask = mod
  · rw [if_neg (not_not.mpr same)] at notMod ⊢
    rw [if_pos (Or.inl same)]
    exact notMod.readMod_eq
  · rw [if_pos same] at stands notMod ⊢
    rw [readMod_text stands notMod]
    by_cases plain : mod = .none
    · rw [if_pos plain, if_pos (Or.inr plain)]
    · rw [if_neg plain, if_neg (not_or.mpr ⟨same, plain⟩)]

/-! ### Attributes -/

/-- A decidable property of the letters of a list is checked letter by letter. -/
theorem forall_mem_of_all {p : Char → Prop} [DecidablePred p] {letters : List Char}
    (all : (letters.all fun letter => decide (p letter)) = true) : ∀ c ∈ letters, p c :=
  fun c member => of_decide_eq_true (List.all_eq_true.mp all c member)

theorem mem_ite_singleton {p : Prop} [Decidable p] {c letter : Char} :
    (c ∈ if p then [letter] else []) ↔ p ∧ c = letter := by
  split_ifs with holds
  · simp only [List.mem_singleton, holds, true_and]
  · simp only [List.not_mem_nil, holds, false_and]

/-- The letters of `return` and `scope`. -/
def Attributes.returnLetters (a : Attributes) : List Char :=
  if a.isReturnScope && !a.isReturnInferred then ['j', 'l']
  else (if a.isScopeQual && !a.isScopeInferred then ['l'] else []) ++
    (if a.isReturn && !a.isReturnInferred then ['j'] else [])

theorem Attributes.mem_returnLetters (a : Attributes) (c : Char) : c ∈ a.returnLetters ↔
    (a.canonical.isReturn = true ∧ c = 'j') ∨ (a.canonical.isScopeQual = true ∧ c = 'l') := by
  rw [Attributes.returnLetters, Attributes.canonical]
  dsimp only
  cases a.isReturnScope && !a.isReturnInferred with
  | true => simp
  | false =>
    rw [if_neg Bool.false_ne_true, List.mem_append, mem_ite_singleton, mem_ite_singleton, or_comm]
    simp only [Bool.false_or]

/-- Each letter stands for one attribute. -/
theorem Attributes.mem_letters (a : Attributes) (c : Char) : c ∈ a.letters ↔
    (a.purity ≠ .impure ∧ c = 'a') ∨ (a.isNothrow = true ∧ c = 'b') ∨ (a.isRef = true ∧ c = 'c') ∨
    (a.isProperty = true ∧ c = 'd') ∨ (a.isNogc = true ∧ c = 'i') ∨ c ∈ a.returnLetters ∨
    (a.isLive = true ∧ c = 'm') ∨ (a.trust = .trusted ∧ c = 'e') ∨ (a.trust = .safe ∧ c = 'f') := by
  rw [Attributes.letters, ← Attributes.returnLetters]
  simp only [List.mem_append, mem_ite_singleton, or_assoc]
  cases a.trust <;> simp only [List.mem_singleton, List.not_mem_nil, reduceCtorEq, false_and,
    true_and, or_false, false_or]

theorem Attributes.mem_attributeSet (a : Attributes) : ∀ c ∈ a.letters, c ∈ attributeSet := by
  intro c member
  rcases (a.mem_letters c).mp member with ⟨-, rfl⟩ | ⟨-, rfl⟩ | ⟨-, rfl⟩ | ⟨-, rfl⟩ | ⟨-, rfl⟩ |
    return_ | ⟨-, rfl⟩ | ⟨-, rfl⟩ | ⟨-, rfl⟩
  case inr.inr.inr.inr.inr.inl =>
    rcases (a.mem_returnLetters c).mp return_ with ⟨-, rfl⟩ | ⟨-, rfl⟩ <;> decide
  all_goals decide

theorem attributeLetters_append {letters rest : List Char} (all : ∀ c ∈ letters, c ∈ attributeSet)
    (stop : attributeLetters rest = []) :
    attributeLetters ((letters.flatMap fun letter => ['N', letter]) ++ rest) = letters := by
  induction letters with
  | nil => exact stop
  | cons c letters inductionHypothesis =>
    have here : c ∈ attributeSet := all c List.mem_cons_self
    rw [List.flatMap_cons, List.append_assoc]
    show attributeLetters ('N' :: c :: ((letters.flatMap fun letter => ['N', letter]) ++ rest)) = _
    rw [attributeLetters, if_pos here,
      inductionHypothesis fun c member => all c (List.mem_cons_of_mem _ member)]

theorem attributeLetters_drop
    (stop : text[pos]? = some 'N' → ∀ c ∈ text[pos + 1]?, c ∉ attributeSet) :
    attributeLetters (text.drop pos) = [] := by
  have first : (text.drop pos)[0]? = text[pos]? := by rw [List.getElem?_drop, Nat.add_zero]
  have second : (text.drop pos)[1]? = text[pos + 1]? := List.getElem?_drop
  rw [attributeLetters.eq_def]
  split
  · rename_i letter rest shape
    rw [shape] at first second
    exact if_neg (stop first.symm letter second.symm)
  · rfl

theorem Attributes.filter_letters (a : Attributes) :
    (a.letters.filter fun letter => letter = 'j' ∨ letter = 'l') = a.returnLetters := by
  have other : ∀ (p : Prop) [Decidable p] (c : Char), c ≠ 'j' → c ≠ 'l' →
      ((if p then [c] else []).filter fun letter => letter = 'j' ∨ letter = 'l') = [] := by
    intro p _ c notJ notL
    split_ifs
    · rw [List.filter_cons_of_neg (by simp [notJ, notL]), List.filter_nil]
    · rfl
  have kept : (a.returnLetters.filter fun letter => letter = 'j' ∨ letter = 'l') =
      a.returnLetters := by
    rw [Attributes.returnLetters]
    split_ifs <;> rfl
  rw [Attributes.letters, ← Attributes.returnLetters]
  simp only [List.filter_append, kept]
  rw [other _ 'a' (by decide) (by decide), other _ 'b' (by decide) (by decide),
    other _ 'c' (by decide) (by decide), other _ 'd' (by decide) (by decide),
    other _ 'i' (by decide) (by decide), other _ 'm' (by decide) (by decide)]
  cases a.trust <;> simp

theorem Attributes.ofLetters_letters (a : Attributes) : .ofLetters a.letters = a.canonical := by
  have order : (a.returnLetters = ['j', 'l']) = (a.isReturnScope && !a.isReturnInferred) := by
    rw [Attributes.returnLetters]
    cases a.isReturnScope && !a.isReturnInferred with
    | true => simp
    | false =>
      rw [if_neg Bool.false_ne_true]
      split_ifs <;> simp
  rw [Attributes.ofLetters, a.filter_letters]
  simp only [order, Attributes.mem_letters, Attributes.mem_returnLetters]
  simp only [Char.reduceEq, and_false, and_true, or_false, false_or]
  rw [Attributes.canonical]
  cases a.trust <;> simp

/-! ### Storage classes -/

theorem storageCodes_append (codes : List Code) {rest : List Char}
    (stop : storageCodes rest = []) :
    storageCodes (codes.flatMap Code.text ++ rest) = codes := by
  induction codes with
  | nil => exact stop
  | cons code codes inductionHypothesis =>
    rw [List.flatMap_cons, List.append_assoc]
    cases code <;> exact congrArg _ inductionHypothesis

theorem storageCodes_drop (notCode : ∀ c ∈ text[pos]?, c ∉ ['M', 'I', 'J', 'K', 'L'])
    (notReturn : text[pos]? = some 'N' → text[pos + 1]? ≠ some 'k') :
    storageCodes (text.drop pos) = [] := by
  have first : (text.drop pos)[0]? = text[pos]? := by rw [List.getElem?_drop, Nat.add_zero]
  have second : (text.drop pos)[1]? = text[pos + 1]? := List.getElem?_drop
  rw [storageCodes.eq_def]
  split
  all_goals
    rename_i shape
    first
    | rfl
    | rw [shape] at first second
      first
      | exact absurd second.symm (notReturn first.symm)
      | exact absurd (by decide) (notCode _ first.symm)

theorem Storage.ofCodes_codes {s : Storage} {codes : List Code} (coded : s.codes = some codes) :
    .ofCodes codes = s.canonical := by
  rw [← s.canonical_explicit]
  rw [← s.codes_explicit] at coded
  exact s.explicit_cases (p := fun s => ∀ codes ∈ s.codes, .ofCodes codes = s.canonical)
    (by decide +kernel) codes coded

/-! ### References -/

theorem scale_eq (fuel n start : Nat) (enough : n < 26 ^ (start + fuel + 1)) :
    ∃ power, scale fuel n (26 ^ start) = 26 ^ power ∧ n < 26 ^ (power + 1) ∧
      (26 ^ power ≤ n ∨ power = start) := by
  induction fuel generalizing start with
  | zero => exact ⟨start, rfl, enough, Or.inr rfl⟩
  | succ fuel inductionHypothesis =>
    rw [scale]
    by_cases more : n ≥ 26 ^ start * 26
    · rw [if_pos more, ← Nat.pow_succ]
      obtain ⟨power, result, below, above⟩ := inductionHypothesis (start + 1) (by
        rw [show start + 1 + fuel + 1 = start + (fuel + 1) + 1 by omega]
        exact enough)
      refine ⟨power, result, below, Or.inl ?_⟩
      rcases above with above | rfl
      · exact above
      · rw [Nat.pow_succ]
        exact more
    · rw [if_neg more]
      exact ⟨start, rfl, by rw [Nat.pow_succ]; exact Nat.not_le.mp more, Or.inr rfl⟩

theorem backRefDigits_eq (power fuel n : Nat) (enough : power < fuel)
    (below : n < 26 ^ (power + 1)) : backRefDigits fuel n (26 ^ power) = marked power n := by
  induction power generalizing fuel n with
  | zero =>
    cases fuel with
    | zero => omega
    | succ fuel => rfl
  | succ power inductionHypothesis =>
    cases fuel with
    | zero => omega
    | succ fuel =>
      have positive : 0 < 26 ^ power := Nat.pow_pos (by decide)
      have large : 26 ^ (power + 1) ≥ 26 := by
        rw [Nat.pow_succ]
        omega
      have digit : n / 26 ^ (power + 1) < 26 := by
        rw [Nat.div_lt_iff_lt_mul (Nat.pow_pos (by decide)), ← Nat.pow_succ']
        exact below
      have narrow : n / 26 ^ (power + 1) % 2 ^ 8 = n / 26 ^ (power + 1) :=
        Nat.mod_eq_of_lt (by omega)
      have rest : n - n / 26 ^ (power + 1) * 26 ^ (power + 1) = n % 26 ^ (power + 1) := by
        have sum := Nat.div_add_mod n (26 ^ (power + 1))
        rw [Nat.mul_comm] at sum
        omega
      have next : 26 ^ (power + 1) / 26 = 26 ^ power := by
        rw [Nat.pow_succ, Nat.mul_div_cancel _ (by decide)]
      rw [backRefDigits, if_pos large]
      dsimp only
      rw [narrow, rest, next, marked,
        inductionHypothesis fuel _ (by omega) (Nat.mod_lt _ (Nat.pow_pos (by decide)))]

/-- A reference is read back as its distance. -/
theorem readMarked_writeBackRef {distance : Nat}
    (stands : Stands text pos (writeBackRef distance)) :
    text[pos]? = some 'Q' ∧ readMarked text (pos + 1) =
      some (distance, pos + (writeBackRef distance).length) := by
  obtain ⟨power, scaled, below, above⟩ := scale_eq distance distance 0 (by
    rw [Nat.zero_add]
    exact (Nat.lt_pow_self (by decide)).trans_le (Nat.pow_le_pow_right (by decide) (by omega)))
  have enough : power < distance + 1 := by
    rcases above with above | rfl
    · have self := Nat.lt_pow_self (n := power) (show 1 < 26 by decide)
      omega
    · omega
  rw [Nat.pow_zero] at scaled
  rw [writeBackRef, scaled, backRefDigits_eq power _ distance enough below] at stands ⊢
  obtain ⟨first, digits⟩ := stands_cons.mp stands
  refine ⟨first, ?_⟩
  rw [readMarked_eq below digits, List.length_cons, Nat.add_assoc, Nat.add_comm 1]

theorem refer_direct {A : Type} {read : Nat → Option (A × Nat)} (direct : text[pos]? ≠ some 'Q') :
    refer text pos read = read pos :=
  if_neg direct

theorem refer_back {A : Type} {read : Nat → Option (A × Nat)} {offset after : Nat} {value : A}
    (stands : Stands text pos (writeBackRef (pos - offset))) (before : offset ≤ pos)
    (there : read offset = some (value, after)) :
    refer text pos read = some (value, pos + (writeBackRef (pos - offset)).length) := by
  obtain ⟨first, distance⟩ := readMarked_writeBackRef stands
  rw [refer, if_pos first, distance, Option.bind_eq_bind, Option.bind_some]
  dsimp only
  rw [Nat.sub_sub_self before, there]
  rfl

theorem headAt_back {offset : Nat} (stands : Stands text pos (writeBackRef (pos - offset)))
    (before : offset ≤ pos) : headAt text pos = text[offset]? := by
  obtain ⟨first, distance⟩ := readMarked_writeBackRef stands
  rw [headAt, if_pos first, distance, Option.bind_some]
  dsimp only
  rw [Nat.sub_sub_self before]

/-! ### Identifiers -/

/-- What is written for an identifier. -/
def Ident.spelling (ident : Ident) : List Char :=
  Nat.toDigits 10 ident.letters.length ++ ident.letters

theorem Ident.ofLetters?_letters (ident : Ident) : Ident.ofLetters? ident.letters = some ident := by
  obtain ⟨letters, c, rest, rfl, digit⟩ := ident
  rw [Ident.ofLetters?, dif_pos digit]

theorem Ident.length_pos (ident : Ident) : 0 < ident.letters.length := by
  obtain ⟨c, rest, shape, _⟩ := ident.first
  rw [shape]
  exact Nat.zero_lt_succ _

/-- The first digit of a positive number is not zero. -/
theorem head?_toDigits {n : Nat} (positive : 0 < n) :
    ∃ c, (Nat.toDigits 10 n).head? = some c ∧ c.isDigit = true ∧ c ≠ '0' := by
  induction n using Nat.strongRecOn with
  | ind n inductionHypothesis =>
    by_cases small : n < 10
    · refine ⟨Nat.digitChar n, ?_, ?_, ?_⟩
      · rw [Nat.toDigits_of_lt_base small]
        rfl
      · rw [Nat.isDigit_digitChar, decide_eq_true_iff]
        exact small
      · rw [Ne, Nat.digitChar_eq_zero]
        exact positive.ne'
    · obtain ⟨c, head, digit, notZero⟩ := inductionHypothesis (n / 10)
        (Nat.div_lt_self positive (by decide)) (Nat.div_pos (Nat.le_of_not_lt small) (by decide))
      refine ⟨c, ?_, digit, notZero⟩
      rw [Nat.toDigits_of_base_le (by decide) (Nat.le_of_not_lt small), List.head?_append, head]
      rfl

theorem stands_head {word : List Char} (stands : Stands text pos word) {c : Char}
    (head : word.head? = some c) : text[pos]? = some c := by
  cases word with
  | nil => cases head
  | cons d rest =>
    rw [List.head?_cons, Option.some.injEq] at head
    rw [(stands_cons.mp stands).1, head]

theorem Ident.head_spelling (ident : Ident) (stands : Stands text pos ident.spelling) :
    ∃ c, text[pos]? = some c ∧ c.isDigit = true ∧ c ≠ '0' := by
  obtain ⟨c, head, digit, notZero⟩ := head?_toDigits ident.length_pos
  exact ⟨c, stands_head (stands_append.mp stands).1 head, digit, notZero⟩

/-- An identifier of the given letters after its length. -/
theorem readIdent_spelling {ident : Ident} (stands : Stands text pos ident.spelling) :
    readIdent text pos = some (ident, pos + ident.spelling.length) := by
  obtain ⟨c, first, digit, _⟩ := ident.head_spelling stands
  obtain ⟨length, letters⟩ := stands_append.mp stands
  obtain ⟨d, rest, shape, notDigit⟩ := ident.first
  have decimal : readDecimal text pos = (ident.letters.length,
      pos + (Nat.toDigits 10 ident.letters.length).length) := by
    refine readDecimal_eq length fun e at_ => ?_
    have head := stands_head letters (c := d) (by rw [shape]; rfl)
    rw [head, Option.some.injEq] at at_
    rw [← at_]
    exact notDigit
  obtain ⟨after, whole⟩ := letters
  have direct : text[pos]? ≠ some 'Q' := by
    rw [first]
    rintro ⟨⟩
    cases digit
  rw [readIdent, refer_direct direct, decimal]
  dsimp only
  rw [← whole, List.take_left, Ident.ofLetters?_letters, Option.map_some, Ident.spelling,
    List.length_append, Nat.add_assoc]

/-- A local number is written as an identifier is. -/
def localIdent (number : Nat) : Ident :=
  ⟨"__S".toList ++ Nat.toDigits 10 number, '_', "_S".toList ++ Nat.toDigits 10 number, rfl, rfl⟩

theorem localParent_eq (number : Nat) : localParent number = (localIdent number).spelling := by
  have length : (localIdent number).letters.length = (Nat.toDigits 10 number).length + 3 := by
    have sum : ("__S".toList ++ Nat.toDigits 10 number).length =
        3 + (Nat.toDigits 10 number).length := List.length_append
    exact sum.trans (Nat.add_comm _ _)
  rw [Ident.spelling, length]
  exact List.append_assoc _ _ _

theorem isLocal_localIdent (number : Nat) : (localIdent number).isLocal = true := by
  have dropped : (localIdent number).letters.drop 3 = Nat.toDigits 10 number := rfl
  rw [Ident.isLocal, dropped, decide_eq_true_iff]
  refine ⟨rfl, Nat.toDigits_ne_nil, List.all_eq_true.mpr fun c member => ?_⟩
  exact Nat.isDigit_of_mem_toDigits (by decide) (by decide) member

theorem number_localIdent (number : Nat) :
    Nat.ofDigitChars 10 ((localIdent number).letters.drop 3) 0 = number := by
  have dropped : (localIdent number).letters.drop 3 = Nat.toDigits 10 number := rfl
  rw [dropped, Nat.ofDigitChars_toDigits (by decide) (by decide)]

end LaserD.Mangle
