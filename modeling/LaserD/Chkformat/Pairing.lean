/-
This file proves which argument is checked against which part of a format.

A format is read from its percent signs, and what is found there asks for arguments: a width or a
precision that is a star, and the conversion. The arguments that a format asks for are checked
against the arguments of the call one by one and in order; a check depends on the one argument only,
and the arguments behind the last one that is asked for are not looked at. Where arguments are
missing the check reports how many there are and stops.
-/

import LaserD.Chkformat.Progress

namespace LaserD.Chkformat

/-! ### What a format asks for -/

/-- What is found at the percent signs of a format, each with the part of the format that it is. -/
inductive Reads {Found : Type} (parse : Text → Option Found) (restOf : Found → Text) :
    Text → List (Found × Text) → Prop
  | nil : Reads parse restOf [] []
  | plain {c : Char} {format : Text} {items : List (Found × Text)} (plain : c ≠ '%')
      (reads : Reads parse restOf format items) : Reads parse restOf (c :: format) items
  | percent {rest : Text} {found : Found} {items : List (Found × Text)}
      (parsed : parse ('%' :: rest) = some found)
      (reads : Reads parse restOf (restOf found) items) :
      Reads parse restOf ('%' :: rest) ((found, sliceOf ('%' :: rest) (restOf found)) :: items)

/-- An argument that is asked for: its check, by its index and its type. -/
abbrev Demand := Nat → Ty → Option (List Message)

/-- The arguments that a specifier of printf asks for. -/
def printfDemands (target : Target) (item : PrintfSpecifier × Text) : List Demand :=
  if item.1.specifier = .percent ∨ item.1.specifier = .GNU_m then []
  else
    let width := fun n e => some (checkStar "width " n item.2 e)
    let precision := fun n e => some (checkStar "precision " n item.2 e)
    (if item.1.widthStar then [width] else []) ++
      ((if item.1.precisionStar then [precision] else []) ++
        [fun n => checkPrintfArgument target item.1.specifier n item.2])

/-- The argument that a specifier of scanf asks for. -/
def scanfDemands (target : Target) (item : ScanfSpecifier × Text) : List Demand :=
  if item.1.specifier = .percent ∨ item.1.asterisk then []
  else [fun n => checkScanfArgument target item.1.specifier n item.2]

/-- The message for a specifier that is invalid. -/
def invalidMessage (fmt : Format) (slice : Text) : List Message :=
  if fmt = .error then [.invalid slice] else []

/-- The messages of the arguments that are there, from the `n`-th on, each checked by what asks for
it. -/
def pairedMessages (demands : List Demand) (args : List Ty) (n : Nat) : List Message :=
  ((demands.zip args).zipIdx n).flatMap fun pair => (pair.1.1 pair.2 pair.1.2).getD []

/-- How a check ends that pairs the arguments with what asks for them. -/
def paired (demands : List Demand) (args : List Ty) : Checked :=
  if args.length < demands.length then
    (true, pairedMessages demands args 0 ++ [.more args.length])
  else (false, pairedMessages demands args 0)

/-! ### The checks of a format -/

section Loop

variable {Found : Type} {parse : Text → Option Found} {restOf : Found → Text}

theorem exists_reads (shortens : Shortens parse restOf) (format : Text) :
    ∃ items, Reads parse restOf format items := by
  induction length : format.length using Nat.strongRecOn generalizing format with
  | ind size inductionHypothesis =>
    cases format with
    | nil => exact ⟨[], .nil⟩
    | cons c format =>
      have smaller : format.length < size := by rw [← length]; exact Nat.lt_succ_self _
      by_cases plain : c ≠ '%'
      · obtain ⟨items, reads⟩ := inductionHypothesis _ smaller format rfl
        exact ⟨items, .plain plain reads⟩
      · obtain rfl : c = '%' := not_not.mp plain
        obtain ⟨found, parsed, behind⟩ := shortens format
        obtain ⟨items, reads⟩ := inductionHypothesis _
          (Nat.lt_of_le_of_lt behind.length_le smaller) (restOf found) rfl
        exact ⟨_, .percent parsed reads⟩

/-- The arguments that are asked for are taken one after the other. -/
def consume (args : List Ty) (demands : List Demand) (follow : Nat → Option Checked) :
    Nat → Option Checked :=
  demands.foldr (fun demand follow n => withArgument args n (demand n) follow) follow

/-- A format is checked by taking the arguments that its specifiers ask for. -/
theorem formatFrom_consume {check : Found → Text → (Nat → Option Checked) → Nat → Option Checked}
    {args : List Ty} {demandsOf : Found × Text → List Demand} (shortens : Shortens parse restOf)
    (takes : ∀ found slice follow,
      check found slice follow = consume args (demandsOf (found, slice)) follow)
    {format : Text} {items : List (Found × Text)} (reads : Reads parse restOf format items) :
    formatFrom parse restOf check format =
      consume args (items.flatMap demandsOf) fun _ => some (false, []) := by
  induction reads with
  | nil => rfl
  | @plain c format items plain reads inductionHypothesis =>
    funext n
    rw [formatFrom_plain c plain, inductionHypothesis]
  | @percent rest found items parsed reads inductionHypothesis =>
    funext n
    rw [formatFrom_percent shortens rest n found parsed, takes, inductionHypothesis,
      List.flatMap_cons, consume, consume, consume, List.foldr_append]

/-- Where each check comes to its end, the arguments that are taken are paired with what asks for
them. -/
theorem consume_eq {args : List Ty} {demands : List Demand}
    (ends : ∀ demand ∈ demands, ∀ n e, ∃ messages, demand n e = some messages) {n : Nat}
    (inside : n ≤ args.length) :
    consume args demands (fun _ => some (false, [])) n =
      some (if args.length < n + demands.length then
        (true, pairedMessages demands (args.drop n) n ++ [.more args.length])
      else (false, pairedMessages demands (args.drop n) n)) := by
  induction demands generalizing n with
  | nil =>
    rw [List.length_nil, if_neg (by omega)]
    rfl
  | cons demand demands inductionHypothesis =>
    obtain ⟨head, tail⟩ := List.forall_mem_cons.mp ends
    have unfolded : consume args (demand :: demands) (fun _ => some (false, [])) n =
        withArgument args n (demand n) (consume args demands fun _ => some (false, [])) := rfl
    rw [unfolded, withArgument, List.length_cons]
    by_cases last : n = args.length
    · rw [last, List.getElem?_eq_none (Nat.le_refl _), List.drop_length, if_pos (by omega)]
      rfl
    · have more : n < args.length := by omega
      obtain ⟨messages, checked⟩ := head n args[n]
      have first : pairedMessages (demand :: demands) (args.drop n) n =
          messages ++ pairedMessages demands (args.drop (n + 1)) (n + 1) := by
        rw [List.drop_eq_getElem_cons more, pairedMessages, List.zip_cons_cons, List.zipIdx_cons,
          List.flatMap_cons]
        dsimp only
        rw [checked, Option.getD_some, pairedMessages]
      rw [List.getElem?_eq_getElem more, inductionHypothesis tail more, first]
      dsimp only
      rw [checked, Option.bind_some, andThen, Option.map_some,
        show n + 1 + demands.length = n + (demands.length + 1) by omega]
      split <;> simp only [List.append_assoc]

/-- Where no argument is checked the messages are those for invalid specifiers. -/
theorem formatFrom_invalid
    {check : Found → Text → (Nat → Option Checked) → Nat → Option Checked}
    (messagesOf : Found × Text → List Message) (shortens : Shortens parse restOf)
    (takes : ∀ found slice follow n, check found slice follow n =
      andThen (messagesOf (found, slice)) (follow n))
    {format : Text} {items : List (Found × Text)} (reads : Reads parse restOf format items)
    (n : Nat) :
    formatFrom parse restOf check format n = some (false, items.flatMap messagesOf) := by
  induction reads generalizing n with
  | nil => rfl
  | @plain c format items plain reads inductionHypothesis =>
    rw [formatFrom_plain c plain, inductionHypothesis]
  | @percent rest found items parsed reads inductionHypothesis =>
    rw [formatFrom_percent shortens rest n found parsed, takes, inductionHypothesis,
      List.flatMap_cons]
    rfl

theorem Reads.parsed {format : Text} {items : List (Found × Text)}
    (reads : Reads parse restOf format items) :
    ∀ item ∈ items, ∃ rest, parse ('%' :: rest) = some item.1 := by
  induction reads with
  | nil => exact fun item member => absurd member List.not_mem_nil
  | plain plain reads inductionHypothesis => exact inductionHypothesis
  | percent parsed reads inductionHypothesis =>
    exact List.forall_mem_cons.mpr ⟨⟨_, parsed⟩, inductionHypothesis⟩

/-- A format is checked by pairing the arguments with what its specifiers ask for. -/
theorem formatFrom_pairs {check : Found → Text → (Nat → Option Checked) → Nat → Option Checked}
    {args : List Ty} {demandsOf : Found × Text → List Demand} (shortens : Shortens parse restOf)
    (takes : ∀ found slice follow n,
      check found slice follow n = consume args (demandsOf (found, slice)) follow n)
    (ends : ∀ {item : Found × Text} {rest : Text}, parse ('%' :: rest) = some item.1 →
      ∀ demand ∈ demandsOf item, ∀ n e, ∃ messages, demand n e = some messages)
    {format : Text} {items : List (Found × Text)} (reads : Reads parse restOf format items) :
    formatFrom parse restOf check format 0 = some (paired (items.flatMap demandsOf) args) := by
  have each : ∀ demand ∈ items.flatMap demandsOf, ∀ n e, ∃ messages,
      demand n e = some messages := by
    intro demand member
    obtain ⟨item, inside, asked⟩ := List.mem_flatMap.mp member
    obtain ⟨rest, parsed⟩ := reads.parsed item inside
    exact ends parsed demand asked
  rw [formatFrom_consume shortens (fun found slice follow => funext (takes found slice follow))
    reads, consume_eq each (Nat.zero_le _), Nat.zero_add]
  rfl

end Loop

/-! ### The checks of calls -/

theorem printfDemands_ends {target : Target} {item : PrintfSpecifier × Text} {rest : Text}
    (parsed : parsePrintfFormatSpecifier target.useGNUExts ('%' :: rest) = some item.1) :
    ∀ demand ∈ printfDemands target item, ∀ n e, ∃ messages, demand n e = some messages := by
  intro demand member n e
  obtain ⟨found, same, within⟩ := parsePrintfFormatSpecifier_within target.useGNUExts rest
  obtain rfl : found = item.1 := Option.some.inj (same.symm.trans parsed)
  rw [printfDemands] at member
  by_cases without : item.1.specifier = .percent ∨ item.1.specifier = .GNU_m
  · rw [if_pos without] at member
    exact absurd member List.not_mem_nil
  rw [if_neg without, List.mem_append, List.mem_append] at member
  have special : item.1.specifier.isSpecial = false := by
    simp [Format.isSpecial, within.2, not_or.mp without]
  rcases member with width | precision | conversion
  · split at width
    · rw [List.mem_singleton.mp width]
      exact ⟨_, rfl⟩
    · exact absurd width List.not_mem_nil
  · split at precision
    · rw [List.mem_singleton.mp precision]
      exact ⟨_, rfl⟩
    · exact absurd precision List.not_mem_nil
  · rw [List.mem_singleton.mp conversion]
    exact checkPrintfArgument_ends target _ n item.2 e special

/-- Each argument of a call of printf is checked against the star or the conversion of the format
that asks for it, in order; where the arguments are a list, only invalid specifiers are reported. -/
theorem checkPrintfFormat_pairs (target : Target) (format : Text) :
    ∃ items,
      Reads (parsePrintfFormatSpecifier target.useGNUExts) PrintfSpecifier.rest format items ∧
      ∀ args, checkPrintfFormat target format args false =
          some (paired (items.flatMap (printfDemands target)) args) ∧
        checkPrintfFormat target format args true =
          some (false, items.flatMap fun item => invalidMessage item.1.specifier item.2) := by
  have shortens := printf_shortens target.useGNUExts
  obtain ⟨items, reads⟩ := exists_reads shortens format
  refine ⟨items, reads, fun args => ⟨?_, ?_⟩⟩
  · refine formatFrom_pairs shortens (fun found slice follow n => ?_) printfDemands_ends reads
    rw [checkPrintfSpecifier, printfDemands]
    dsimp only
    by_cases without : found.specifier = .percent ∨ found.specifier = .GNU_m
    · rw [if_pos without, if_pos without]
      rfl
    · rw [if_neg without, if_neg without, if_neg Bool.false_ne_true]
      cases found.widthStar <;> cases found.precisionStar <;> rfl
  · refine formatFrom_invalid _ shortens (fun found slice follow n => ?_) reads 0
    rw [checkPrintfSpecifier]
    dsimp only
    by_cases without : found.specifier = .percent ∨ found.specifier = .GNU_m
    · have silent : invalidMessage found.specifier slice = [] := by
        rcases without with same | same <;> rw [same] <;> rfl
      rw [if_pos without, silent, andThen]
      exact (Option.map_id' (x := follow n)).symm
    · rw [if_neg without, if_pos rfl, invalidMessage]

theorem scanfDemands_ends {target : Target} {item : ScanfSpecifier × Text} {rest : Text}
    (parsed : parseScanfFormatSpecifier ('%' :: rest) = some item.1) :
    ∀ demand ∈ scanfDemands target item, ∀ n e, ∃ messages, demand n e = some messages := by
  intro demand member n e
  obtain ⟨found, same, within⟩ := parseScanfFormatSpecifier_within rest
  obtain rfl : found = item.1 := Option.some.inj (same.symm.trans parsed)
  rw [scanfDemands] at member
  split at member
  · exact absurd member List.not_mem_nil
  · rename_i without
    rw [List.mem_singleton.mp member]
    exact checkScanfArgument_ends target _ n item.2 e within.2 (not_or.mp without).1

/-- Each argument of a call of scanf is checked against the conversion of the format that stores
into it, in order; a conversion that stores nothing is not checked at all. -/
theorem checkScanfFormat_pairs (target : Target) (format : Text) :
    ∃ items, Reads parseScanfFormatSpecifier ScanfSpecifier.rest format items ∧
      ∀ args, checkScanfFormat target format args false =
          some (paired (items.flatMap (scanfDemands target)) args) ∧
        checkScanfFormat target format args true =
          some (false, items.flatMap fun item =>
            if item.1.asterisk then [] else invalidMessage item.1.specifier item.2) := by
  obtain ⟨items, reads⟩ := exists_reads scanf_shortens format
  refine ⟨items, reads, fun args => ⟨?_, ?_⟩⟩
  · refine formatFrom_pairs scanf_shortens (fun found slice follow n => ?_) scanfDemands_ends reads
    rw [checkScanfSpecifier, scanfDemands]
    dsimp only
    split <;> rfl
  · refine formatFrom_invalid (fun item : ScanfSpecifier × Text =>
      if item.1.asterisk then [] else invalidMessage item.1.specifier item.2) scanf_shortens
      (fun found slice follow n => ?_) reads 0
    rw [checkScanfSpecifier]
    dsimp only
    by_cases without : found.specifier = .percent ∨ found.asterisk
    · have silent : (if found.asterisk then [] else invalidMessage found.specifier slice) = [] := by
        rcases without with same | skipped
        · rw [same]
          split <;> rfl
        · rw [if_pos skipped]
      rw [if_pos without, silent, andThen]
      exact (Option.map_id' (x := follow n)).symm
    · rw [if_neg without, if_pos rfl, if_neg (not_or.mp without).2, invalidMessage]

end LaserD.Chkformat
