/-
This file proves that the checks of formats end. Each specifier is read within the format, and at
least its percent sign is read; so the loops reach the end of every format, and they come to no
failed assertion.
-/

import LaserD.Chkformat.Check

namespace LaserD.Chkformat

/-! ### Length and specifier -/

theorem readModifier_suffix (rest : Text) : (readModifier rest).2 <:+ rest := by
  unfold readModifier
  split
  · exact List.suffix_cons _ _
  · exact List.suffix_cons _ _
  · exact List.suffix_cons _ _
  · exact List.suffix_cons _ _
  · exact (List.suffix_cons _ _).trans (List.suffix_cons _ _)
  · exact List.suffix_cons _ _
  · exact (List.suffix_cons _ _).trans (List.suffix_cons _ _)
  · exact List.suffix_cons _ _
  · exact List.suffix_rfl

/-- The formats that an extension of one of the two functions adds, and that of no argument. -/
def Format.isSpecial (fmt : Format) : Bool :=
  fmt = .GNU_m || fmt = .POSIX_ms || fmt = .POSIX_mls || fmt = .percent

theorem signedFormat_isSpecial (flags : Modifier) : (signedFormat flags).isSpecial = false := by
  cases flags <;> rfl

theorem unsignedFormat_isSpecial (flags : Modifier) : (unsignedFormat flags).isSpecial = false := by
  cases flags <;> rfl

theorem floatFormat_isSpecial (flags : Modifier) : (floatFormat flags).isSpecial = false := by
  cases flags <;> rfl

theorem countFormat_isSpecial (flags : Modifier) : (countFormat flags).isSpecial = false := by
  cases flags <;> rfl

theorem specifierOf_isSpecial (flags : Modifier) (sc : Char) :
    (specifierOf flags sc).isSpecial = false := by
  unfold specifierOf
  split
  · exact signedFormat_isSpecial flags
  · exact signedFormat_isSpecial flags
  · exact unsignedFormat_isSpecial flags
  · exact unsignedFormat_isSpecial flags
  · exact unsignedFormat_isSpecial flags
  · exact unsignedFormat_isSpecial flags
  · exact floatFormat_isSpecial flags
  · exact floatFormat_isSpecial flags
  · exact floatFormat_isSpecial flags
  · exact floatFormat_isSpecial flags
  · exact floatFormat_isSpecial flags
  · exact floatFormat_isSpecial flags
  · exact floatFormat_isSpecial flags
  · exact floatFormat_isSpecial flags
  · cases flags <;> rfl
  · cases flags <;> rfl
  · cases flags <;> rfl
  · exact countFormat_isSpecial flags
  · cases flags <;> rfl
  · cases flags <;> rfl
  · rfl

theorem parseGenericFormatSpecifier_suffix (rest : Text) (someLeft : rest ≠ []) :
    ∃ found, parseGenericFormatSpecifier rest = some found ∧ found.2.2 <:+ rest ∧
      found.1.isSpecial = false := by
  unfold parseGenericFormatSpecifier
  rw [if_neg someLeft]
  have read := readModifier_suffix rest
  split
  · exact ⟨_, rfl, List.nil_suffix, rfl⟩
  · rename_i flags sc left same
    rw [same] at read
    exact ⟨_, rfl, (List.suffix_cons _ _).trans read, specifierOf_isSpecial flags sc⟩

/-! ### Specifiers of scanf -/

theorem passOver_suffix (c : Char) (rest : Text) : passOver c rest <:+ rest := by
  cases rest with
  | nil => exact List.suffix_rfl
  | cons d rest =>
    by_cases same : d = c
    · rw [passOver, if_pos same]
      exact List.suffix_cons _ _
    · simp only [passOver, if_neg same, List.suffix_rfl]

/-- A specifier of scanf is read within a text. -/
def ScanfSpecifier.Within (found : ScanfSpecifier) (rest : Text) : Prop :=
  found.rest <:+ rest ∧ found.specifier ≠ .GNU_m

theorem ScanfSpecifier.Within.trans {found : ScanfSpecifier} {left rest : Text}
    (within : found.Within left) (behind : left <:+ rest) : found.Within rest :=
  ⟨within.1.trans behind, within.2⟩

theorem parseScanset_within (flags : Modifier) (asterisk : Bool) (rest : Text) :
    (parseScanset flags asterisk rest).Within rest := by
  have read := ((List.dropWhile_suffix (· ≠ ']')).trans (passOver_suffix ']' _)).trans
    (passOver_suffix '^' rest)
  unfold parseScanset
  split
  · exact ⟨List.nil_suffix, Format.noConfusion⟩
  · rename_i left same
    rw [same] at read
    refine ⟨(List.suffix_cons _ _).trans read, ?_⟩
    cases flags <;> exact Format.noConfusion

theorem parseAllocated_within (flags : Modifier) (asterisk : Bool) (rest : Text) :
    (parseAllocated flags asterisk rest).Within rest := by
  cases rest with
  | nil => exact ⟨List.suffix_rfl, Format.noConfusion⟩
  | cons c rest =>
    have behind := List.suffix_cons c rest
    by_cases narrow : c = 'c' ∨ c = 's'
    · rw [parseAllocated, if_pos narrow]
      refine ⟨behind, ?_⟩
      show (if flags = .ml then _ else _) ≠ _
      split <;> exact Format.noConfusion
    by_cases wide : c = 'C' ∨ c = 'S'
    · rw [parseAllocated, if_neg narrow, if_pos wide]
      refine ⟨behind, ?_⟩
      show (if flags = .m then _ else _) ≠ _
      split <;> exact Format.noConfusion
    by_cases scanset : c = '['
    · rw [parseAllocated, if_neg narrow, if_neg wide, if_pos scanset]
      exact (parseScanset_within _ _ _).trans behind
    · rw [parseAllocated, if_neg narrow, if_neg wide, if_neg scanset]
      exact ⟨behind, Format.noConfusion⟩

theorem parseAllocating_within (asterisk : Bool) (rest : Text) :
    (parseAllocating asterisk rest).Within rest := by
  unfold parseAllocating
  split
  · exact (parseAllocated_within _ _ _).trans (List.suffix_cons _ _)
  · exact parseAllocated_within _ _ _

theorem parseScanfConversion_within (asterisk : Bool) (rest : Text) (someLeft : rest ≠ []) :
    ∃ found, parseScanfConversion asterisk rest = some found ∧ found.Within rest := by
  unfold parseScanfConversion
  split
  · exact absurd rfl someLeft
  · exact ⟨_, rfl, (parseAllocating_within _ _).trans (List.suffix_cons _ _)⟩
  · exact ⟨_, rfl, (parseScanset_within _ _ _).trans
      ((List.suffix_cons _ _).trans (List.suffix_cons _ _))⟩
  · exact ⟨_, rfl, (parseScanset_within _ _ _).trans (List.suffix_cons _ _)⟩
  · obtain ⟨found, same, read, special⟩ := parseGenericFormatSpecifier_suffix rest someLeft
    refine ⟨_, by rw [same]; rfl, read, ?_⟩
    show found.1 ≠ _
    intro other
    rw [other] at special
    exact absurd special (by decide)

theorem parseScanfWidth_within (asterisk : Bool) (rest : Text) (someLeft : rest ≠ []) :
    ∃ found, parseScanfWidth asterisk rest = some found ∧ found.Within rest := by
  unfold parseScanfWidth
  rw [if_neg someLeft]
  have read : rest.dropWhile isdigit <:+ rest := List.dropWhile_suffix isdigit
  split
  · exact ⟨_, rfl, List.nil_suffix, Format.noConfusion⟩
  · rename_i left ends
    obtain ⟨found, same, within⟩ := parseScanfConversion_within asterisk _ ends
    exact ⟨found, same, within.trans read⟩

/-- A specifier of scanf is read within the format, and its percent sign is read. -/
theorem parseScanfFormatSpecifier_within (rest : Text) :
    ∃ found, parseScanfFormatSpecifier ('%' :: rest) = some found ∧ found.Within rest := by
  show ∃ found, parseScanfBehind rest = some found ∧ _
  unfold parseScanfBehind
  split
  · exact ⟨_, rfl, List.nil_suffix, Format.noConfusion⟩
  · exact ⟨_, rfl, List.suffix_cons _ _, Format.noConfusion⟩
  · exact ⟨_, rfl, List.nil_suffix, Format.noConfusion⟩
  · rename_i left ends
    obtain ⟨found, same, within⟩ := parseScanfWidth_within true left (by rintro rfl; exact ends rfl)
    exact ⟨found, same, within.trans (List.suffix_cons _ _)⟩
  · rename_i ends _ _ _
    exact parseScanfWidth_within false _ ends

/-! ### Specifiers of printf -/

theorem readFlags_suffix (found : Flags) (rest : Text) : (readFlags found rest).2 <:+ rest := by
  induction rest generalizing found with
  | nil => exact List.suffix_rfl
  | cons c rest inductionHypothesis =>
    unfold readFlags
    split_ifs
    · exact (inductionHypothesis _).trans (List.suffix_cons _ _)
    · exact (inductionHypothesis _).trans (List.suffix_cons _ _)
    · exact (inductionHypothesis _).trans (List.suffix_cons _ _)
    · exact List.suffix_rfl

theorem readWidth_suffix (rest : Text) : (readWidth rest).2 <:+ rest := by
  cases rest with
  | nil => exact List.suffix_rfl
  | cons c rest =>
    rw [readWidth]
    split_ifs
    · exact List.suffix_cons _ _
    · exact (List.dropWhile_suffix _).trans (List.suffix_cons _ _)
    · exact List.suffix_rfl

theorem readPrecision_suffix (rest : Text) : (readPrecision rest).2 <:+ rest := by
  unfold readPrecision
  split
  · split
    · exact (List.suffix_cons _ _).trans (List.suffix_cons _ _)
    · exact (List.dropWhile_suffix _).trans (List.suffix_cons _ _)
  · exact List.suffix_rfl

/-- A specifier of printf is read within a text. -/
def PrintfSpecifier.Within (found : PrintfSpecifier) (rest : Text) : Prop :=
  found.rest <:+ rest ∧ found.specifier ≠ .POSIX_ms ∧ found.specifier ≠ .POSIX_mls

theorem PrintfSpecifier.Within.trans {found : PrintfSpecifier} {left rest : Text}
    (within : found.Within left) (behind : left <:+ rest) : found.Within rest :=
  ⟨within.1.trans behind, within.2⟩

theorem readSpecifier_suffix (useGNUExts : Bool) (rest : Text) (someLeft : rest ≠ []) :
    ∃ found, readSpecifier useGNUExts rest = some found ∧ found.2.2 <:+ rest ∧
      (found.1 = .GNU_m ∨ found.1.isSpecial = false) := by
  obtain ⟨found, same, read, special⟩ := parseGenericFormatSpecifier_suffix rest someLeft
  unfold readSpecifier
  split
  · split
    · exact ⟨_, rfl, List.suffix_cons _ _, Or.inl rfl⟩
    · exact ⟨found, same, read, Or.inr special⟩
  · exact ⟨found, same, read, Or.inr special⟩

theorem parsePrintfConversion_within (useGNUExts : Bool) (flags : Flags) (width precision : Field)
    (rest : Text) (someLeft : rest ≠ []) :
    ∃ found, parsePrintfConversion useGNUExts flags width precision rest = some found ∧
      found.Within rest := by
  obtain ⟨found, same, read, kind⟩ := readSpecifier_suffix useGNUExts rest someLeft
  unfold parsePrintfConversion
  rw [same]
  refine ⟨_, rfl, ?_⟩
  by_cases invalid : found.1 = .error ∨ isUndefined flags width precision found.2.1
  · dsimp only
    rw [if_pos invalid]
    exact ⟨read, Format.noConfusion, Format.noConfusion⟩
  · dsimp only
    rw [if_neg invalid]
    refine ⟨read, ?_, ?_⟩
    · rintro (other : found.1 = _)
      rw [other] at kind
      exact absurd kind (by decide)
    · rintro (other : found.1 = _)
      rw [other] at kind
      exact absurd kind (by decide)

theorem parsePrintfPrecision_within (useGNUExts : Bool) (flags : Flags) (width : Field)
    (rest : Text) :
    ∃ found, parsePrintfPrecision useGNUExts flags width rest = some found ∧
      found.Within rest := by
  have precisionRead := readPrecision_suffix rest
  unfold parsePrintfPrecision
  split
  · exact ⟨_, rfl, List.nil_suffix, Format.noConfusion, Format.noConfusion⟩
  · rename_i precision left ends same
    rw [same] at precisionRead
    obtain ⟨found, parsed, within⟩ := parsePrintfConversion_within useGNUExts flags width
      precision left (by rintro rfl; exact ends rfl)
    exact ⟨found, parsed, within.trans precisionRead⟩

theorem parsePrintfWidth_within (useGNUExts : Bool) (flags : Flags) (rest : Text) :
    ∃ found, parsePrintfWidth useGNUExts flags rest = some found ∧ found.Within rest := by
  have widthRead := readWidth_suffix rest
  unfold parsePrintfWidth
  split
  · exact ⟨_, rfl, List.nil_suffix, Format.noConfusion, Format.noConfusion⟩
  · rename_i width left _ same
    rw [same] at widthRead
    obtain ⟨found, parsed, within⟩ := parsePrintfPrecision_within useGNUExts flags width left
    exact ⟨found, parsed, within.trans widthRead⟩

theorem parsePrintfFlags_within (useGNUExts : Bool) (rest : Text) :
    ∃ found, parsePrintfFlags useGNUExts rest = some found ∧ found.Within rest := by
  have flagsRead := readFlags_suffix ⟨false, false, false⟩ rest
  unfold parsePrintfFlags
  split
  · exact ⟨_, rfl, List.nil_suffix, Format.noConfusion, Format.noConfusion⟩
  · rename_i flags left _ same
    rw [same] at flagsRead
    obtain ⟨found, parsed, within⟩ := parsePrintfWidth_within useGNUExts flags left
    exact ⟨found, parsed, within.trans flagsRead⟩

/-- A specifier of printf is read within the format, and its percent sign is read. -/
theorem parsePrintfFormatSpecifier_within (useGNUExts : Bool) (rest : Text) :
    ∃ found, parsePrintfFormatSpecifier useGNUExts ('%' :: rest) = some found ∧
      found.Within rest := by
  show ∃ found, parsePrintfBehind useGNUExts rest = some found ∧ _
  unfold parsePrintfBehind
  split
  · exact ⟨_, rfl, List.nil_suffix, Format.noConfusion, Format.noConfusion⟩
  · exact ⟨_, rfl, List.suffix_cons _ _, Format.noConfusion, Format.noConfusion⟩
  · exact parsePrintfFlags_within useGNUExts _

/-! ### The loops -/

section Loop

variable {Found : Type} {parse : Text → Option Found} {restOf : Found → Text}
  {check : Found → Text → (Nat → Option Checked) → Nat → Option Checked}

/-- The rest of what is found at a percent sign is shorter than the format. -/
def Shortens (parse : Text → Option Found) (restOf : Found → Text) : Prop :=
  ∀ rest, ∃ found, parse ('%' :: rest) = some found ∧ restOf found <:+ rest

/-- The loop has come to its end before it has no fuel left. -/
theorem formatLoop_fuel (shortens : Shortens parse restOf) (format : Text) (fuel : Nat)
    (enough : format.length ≤ fuel) (n : Nat) :
    formatLoop parse restOf check fuel format n =
      formatLoop parse restOf check format.length format n := by
  induction fuel using Nat.strongRecOn generalizing format n with
  | ind fuel inductionHypothesis =>
    cases format with
    | nil => cases fuel <;> rfl
    | cons c format =>
      cases fuel with
      | zero => exact absurd enough (by simp)
      | succ fuel =>
        have enough' : format.length ≤ fuel := Nat.le_of_succ_le_succ enough
        rw [List.length_cons, formatLoop, formatLoop]
        by_cases plain : c ≠ '%'
        · rw [if_pos plain, if_pos plain]
          exact inductionHypothesis fuel (Nat.lt_succ_self fuel) format enough' n
        · rw [if_neg plain, if_neg plain]
          obtain rfl : c = '%' := not_not.mp plain
          obtain ⟨found, same, behind⟩ := shortens format
          have shorter : (restOf found).length ≤ format.length := behind.length_le
          have sameRest : formatLoop parse restOf check fuel (restOf found) =
              formatLoop parse restOf check format.length (restOf found) := by
            funext n
            rw [inductionHypothesis fuel (Nat.lt_succ_self fuel) _ (Nat.le_trans shorter enough') n]
            rcases Nat.lt_or_eq_of_le enough' with less | equal
            · exact (inductionHypothesis format.length (Nat.lt_trans less (Nat.lt_succ_self fuel)) _
                shorter n).symm
            · rw [equal]
              exact (inductionHypothesis fuel (Nat.lt_succ_self fuel) _
                (Nat.le_trans shorter enough') n).symm
          rw [same, Option.bind_some, Option.bind_some, sameRest]

/-- The loop from a position on. -/
def formatFrom (parse : Text → Option Found) (restOf : Found → Text)
    (check : Found → Text → (Nat → Option Checked) → Nat → Option Checked) (format : Text)
    (n : Nat) : Option Checked :=
  formatLoop parse restOf check format.length format n

theorem formatFrom_plain (c : Char) (plain : c ≠ '%') (format : Text) (n : Nat) :
    formatFrom parse restOf check (c :: format) n = formatFrom parse restOf check format n := by
  show formatLoop parse restOf check (format.length + 1) (c :: format) n = _
  rw [formatLoop, if_pos plain]
  rfl

theorem formatFrom_percent (shortens : Shortens parse restOf) (rest : Text) (n : Nat)
    (found : Found) (same : parse ('%' :: rest) = some found) :
    formatFrom parse restOf check ('%' :: rest) n =
      check found (sliceOf ('%' :: rest) (restOf found))
        (formatFrom parse restOf check (restOf found)) n := by
  obtain ⟨found', same', behind⟩ := shortens rest
  obtain rfl : found' = found := by rw [same] at same'; exact (Option.some.inj same').symm
  show formatLoop parse restOf check (rest.length + 1) ('%' :: rest) n = _
  rw [formatLoop, if_neg (by simp), same, Option.bind_some]
  congr 1
  funext n
  exact formatLoop_fuel shortens _ _ behind.length_le n

end Loop

theorem checkPrintfArgument_ends (target : Target) (fmt : Format) (index : Nat) (slice : Text)
    (type : Ty) (possible : fmt.isSpecial = false) :
    ∃ messages, checkPrintfArgument target fmt index slice type = some messages := by
  refine Option.isSome_iff_exists.mp ?_
  cases fmt <;> first
    | rfl
    | exact absurd possible (by decide)
    | (show (if _ then _ else _ : Option (List Message)).isSome = true; split <;> rfl)

theorem checkScanfArgument_ends (target : Target) (fmt : Format) (index : Nat) (slice : Text)
    (type : Ty) (possible : fmt ≠ .GNU_m) (argument : fmt ≠ .percent) :
    ∃ messages, checkScanfArgument target fmt index slice type = some messages := by
  refine Option.isSome_iff_exists.mp ?_
  cases fmt <;> first
    | rfl
    | exact absurd rfl possible
    | exact absurd rfl argument

theorem printf_shortens (useGNUExts : Bool) :
    Shortens (parsePrintfFormatSpecifier useGNUExts) PrintfSpecifier.rest := by
  intro rest
  obtain ⟨found, same, within⟩ := parsePrintfFormatSpecifier_within useGNUExts rest
  exact ⟨found, same, within.1⟩

theorem scanf_shortens : Shortens parseScanfFormatSpecifier ScanfSpecifier.rest := by
  intro rest
  obtain ⟨found, same, within⟩ := parseScanfFormatSpecifier_within rest
  exact ⟨found, same, within.1⟩

end LaserD.Chkformat
