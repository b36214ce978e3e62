/-
This file proves that the bit vectors of the back end are sets, in every state that valid calls
reach.

Each call keeps the invariant and does what it does to the sets. A vector without bits is a null
pointer. What is not right then, and only there, are the calls that read its number of bits; and a
count has 32 bits.
-/

import LaserD.Dvec.Invariant

namespace LaserD.Dvec

open PackedBits

namespace Inv

variable {g : VecGlobal} {s : Vectors}

/-! ### A new number of bits -/

/-- The words of an old vector are copied to a new one, and the bits beyond its number of bits are
cleared. -/
theorem resize_spec {block new : Block} {x : VecSet} (stores : block.Stores x) {numbits : Nat}
    (zeros : new.Stores (.empty numbits)) : ∃ words,
    memcpy new.words block.words (if block.dim < new.dim then block.dim else new.dim) = some words ∧
      ∃ new', vec_clearextrabits { new with words := words } = some new' ∧
        new'.Stores (x.resize numbits) := by
  have numbitsEq : new.numbits = numbits := zeros.numbits
  have newDim : new.dim = (numbits + 63) / 64 := zeros.dim
  have oldDim := stores.dim
  have newWords : new.words = List.replicate new.dim 0 := by
    refine eq_of_bitAt (by rw [zeros.length, List.length_replicate]) fun b => ?_
    rw [bitAt_zeros]
    exact Bool.not_eq_true _ ▸ fun set => Finset.notMem_empty b ((zeros.bits b).mp set)
  obtain ⟨words, copied, length, bits⟩ := memcpy_zeros block.words
    (if block.dim < new.dim then block.dim else new.dim) new.dim
    (by split <;> omega) (by rw [stores.length]; split <;> omega)
  rw [← newWords] at copied
  obtain ⟨words', cleared, length', bits'⟩ := clearextrabits_spec
    { new with words := words } (by rw [newDim, numbitsEq])
    (by rw [numbitsEq]; exact zeros.positive) length
  refine ⟨words, copied, _, cleared, ?_⟩
  refine zeros.replace (y := x.resize numbits) length' rfl fun b => ?_
  have kept : decide (b < new.numbits) = true ↔ b < numbits := by
    rw [numbitsEq, decide_eq_true_iff]
  rw [bits', bits, Bool.and_eq_true, Bool.and_eq_true, kept, stores.bits, decide_eq_true_iff,
    VecSet.resize, Finset.mem_filter]
  constructor
  · exact fun ⟨inside, _, member⟩ => ⟨member, inside⟩
  · rintro ⟨member, inside⟩
    have bounded := x.bounded b member
    refine ⟨inside, ?_, member⟩
    split <;> omega

theorem realloc_spec (inv : Inv g s) {v : vec_t} {x : VecSet} (value : s.value v = some x)
    (numbits : Nat) (small : numbits ≤ maxNumbits) : ∃ v' g' s',
    vec_realloc g v numbits = some (v', g') ∧ (s.remove v).Adds (x.resize numbits) v' s' ∧
      Inv g' s' := by
  rw [vec_realloc.eq_def]
  cases v with
  | none =>
    cases value
    have same : (VecSet.empty 0).resize numbits = .empty numbits := VecSet.ext rfl rfl
    rw [same]
    exact inv.allocate_spec numbits small
  | some p =>
    obtain ⟨block, found, stores⟩ := inv.stores p x value
    have held : s p = some x := value
    have removed : s.remove (some p) p = none := Function.update_self ..
    dsimp only
    by_cases zero : numbits = 0
    · obtain ⟨g', freed, inv'⟩ := inv.free_spec value
      rw [if_pos zero, freed]
      exact ⟨none, g', _, rfl, ⟨zero, rfl⟩, inv'⟩
    · rw [if_neg zero, found, Option.bind_some, stores.numbits]
      by_cases same : numbits = x.numbits
      · rw [if_pos same]
        refine ⟨some p, g, s, rfl, ⟨zero, removed, ?_⟩, inv⟩
        have whole : x.resize numbits = x :=
          VecSet.ext same (Finset.filter_true_of_mem fun b member => same ▸ x.bounded b member)
        rw [whole, Vectors.remove, Function.update_idem, ← held, Function.update_eq_self]
      · obtain ⟨v', g1, s1, allocated, adds, inv1⟩ := inv.allocate_spec numbits small
        rw [if_neg same, allocated, Option.bind_some]
        cases v' with
        | none => exact absurd adds.1 zero
        | some p' =>
          obtain ⟨-, free, rfl⟩ := adds
          have different : p ≠ p' := by
            rintro rfl
            rw [held] at free
            cases free
          have still : Function.update s p' (some (.empty numbits)) p = some x :=
            (Function.update_of_ne different ..).trans held
          obtain ⟨block1, found1, stores1⟩ := inv1.stores p x still
          obtain ⟨new, foundNew, zeros⟩ := inv1.stores p' _ (Function.update_self ..)
          obtain ⟨words, copied, new', cleared, stores'⟩ := resize_spec stores1 zeros
          have inv2 := inv1.rewrite (Function.update_self ..) stores'
          rw [Function.update_idem] at inv2
          have value2 : Vectors.value (Function.update s p' (some (x.resize numbits))) (some p) =
              some x := (Function.update_of_ne different ..).trans held
          obtain ⟨g3, freed, inv3⟩ := inv2.free_spec value2
          refine ⟨some p', g3, _, ?_, ⟨zero, ?_, rfl⟩, ?_⟩
          · dsimp only
            rw [found1, Option.bind_some, foundNew, Option.bind_some, copied, Option.bind_some,
              cleared, Option.bind_some, freed]
            rfl
          · exact (Function.update_of_ne different.symm ..).trans free
          · rw [Vectors.remove, Function.update_comm different]
            exact inv3

/-! ### Words that are changed -/

/-- A vector that is held is changed. -/
theorem modify_spec (inv : Inv g s) {p : Nat} {x y : VecSet} (held : s p = some x)
    {f : Block → Option Block}
    (changes : ∀ block, block.Stores x → ∃ block', f block = some block' ∧ block'.Stores y) :
    ∃ g', modify g (some p) f = some g' ∧ Inv g' (s.write (some p) y) := by
  obtain ⟨block, found, stores⟩ := inv.stores p x held
  obtain ⟨block', changed, stores'⟩ := changes block stores
  refine ⟨g.write p block', ?_, inv.rewrite held stores'⟩
  rw [modify, Option.bind_some, found, Option.bind_some, changed]
  rfl

/-- One bit of a vector is written. -/
theorem write_bit {block : Block} {x y : VecSet} (stores : block.Stores x) {b : Nat}
    (inside : b < x.numbits) {f : Word → Word} (numbits : y.numbits = x.numbits)
    (bits : ∀ word : Word, ∀ c, c / 64 = b / 64 → (word.getLsbD (c % 64) = true ↔ c ∈ x.bits) →
      ((f word).getLsbD (c % 64) = true ↔ c ∈ y.bits))
    (others : ∀ c, c ≠ b → (c ∈ x.bits ↔ c ∈ y.bits)) : ∃ block',
    (if b < block.numbits then (modifyWord block.words (b / VECBITS) f).map fun words =>
      { block with words := words } else none) = some block' ∧ block'.Stores y := by
  have bound : b / 64 < block.words.length := by
    rw [stores.length, stores.dim]
    omega
  obtain ⟨words, modified, length, bitsAfter⟩ := bitAt_modifyWord bound f
  rw [if_pos (by rwa [stores.numbits]), VECBITS_eq, modified]
  refine ⟨_, rfl, stores.replace (length.trans stores.length) numbits fun c => ?_⟩
  rw [bitsAfter]
  split
  next word =>
    refine bits _ c word ?_
    rw [getLsbD_word word]
    exact stores.bits c
  next word =>
    rw [stores.bits]
    exact others c fun same => word (by rw [same])

theorem setbit_spec (inv : Inv g s) {v : vec_t} {x : VecSet} (value : s.value v = some x)
    {b : Nat} (inside : b < x.numbits) : ∃ g' y, vec_setbit g b v = some g' ∧
      y.numbits = x.numbits ∧ y.bits = insert b x.bits ∧ Inv g' (s.write v y) := by
  cases v with
  | none =>
    cases value
    exact absurd inside (Nat.not_lt_zero b)
  | some p =>
    let y : VecSet := ⟨x.numbits, insert b x.bits, fun c member =>
      (Finset.mem_insert.mp member).elim (fun same => same ▸ inside) (x.bounded c)⟩
    have changes (block : Block) (stores : block.Stores x) := write_bit (y := y)
      (f := (· ||| 1#64 <<< (b % VECBITS))) stores inside rfl
      (fun word c same bits => by
        rw [BitVec.getLsbD_or, Bool.or_eq_true, bits, VECBITS_eq,
          getLsbD_single _ _ (Nat.mod_lt _ (by decide)), decide_eq_true_iff, Finset.mem_insert,
          or_comm]
        exact or_congr_left ⟨fun place => by omega, fun same => by rw [same]⟩)
      (fun c other => by rw [Finset.mem_insert]; exact (or_iff_right other).symm)
    obtain ⟨g', modified, inv'⟩ := inv.modify_spec value changes
    exact ⟨g', y, modified, rfl, rfl, inv'⟩

theorem clearbit_spec (inv : Inv g s) {v : vec_t} {x : VecSet} (value : s.value v = some x)
    {b : Nat} (inside : b < x.numbits) : ∃ g' y, vec_clearbit g b v = some g' ∧
      y.numbits = x.numbits ∧ y.bits = x.bits.erase b ∧ Inv g' (s.write v y) := by
  cases v with
  | none =>
    cases value
    exact absurd inside (Nat.not_lt_zero b)
  | some p =>
    let y : VecSet := ⟨x.numbits, x.bits.erase b, fun c member =>
      x.bounded c (Finset.mem_of_mem_erase member)⟩
    have changes (block : Block) (stores : block.Stores x) := write_bit (y := y)
      (f := (· &&& ~~~(1#64 <<< (b % VECBITS)))) stores inside rfl
      (fun word c same bits => by
        have place : c % 64 < 64 := Nat.mod_lt _ (by decide)
        rw [BitVec.getLsbD_and, Bool.and_eq_true, bits, VECBITS_eq, BitVec.getLsbD_not,
          getLsbD_single _ _ place, decide_eq_true place, Bool.true_and, Bool.not_eq_true',
          decide_eq_false_iff_not, Finset.mem_erase, and_comm]
        exact and_congr_left fun _ => not_congr ⟨fun place => by omega, fun same => by rw [same]⟩)
      (fun c other => by rw [Finset.mem_erase]; exact (and_iff_right other).symm)
    obtain ⟨g', modified, inv'⟩ := inv.modify_spec value changes
    exact ⟨g', y, modified, rfl, rfl, inv'⟩

/-! ### Vectors that are combined -/

/-- The set of an operation has no other numbers of bits. -/
theorem bounded_apply (op : SetOp) {x y : VecSet} {numbits : Nat} (left : x.numbits = numbits)
    (right : y.numbits = numbits) : ∀ b ∈ op.apply x.bits y.bits, b < numbits := by
  intro b member
  have either : b ∈ x.bits ∨ b ∈ y.bits := by
    by_contra neither
    obtain ⟨notLeft, notRight⟩ := not_or.mp neither
    have bit := (op.mem_apply _ _ b).mp member
    rw [decide_eq_false notLeft, decide_eq_false notRight] at bit
    cases op <;> cases bit
  rcases either with inLeft | inRight
  · exact left ▸ x.bounded b inLeft
  · exact right ▸ y.bounded b inRight

/-- The words that are combined are those of the set of the operation. -/
theorem combine_words (op : SetOp) {block1 block2 block3 : Block} {x y z : VecSet}
    (stores1 : block1.Stores x) (stores2 : block2.Stores y) (stores3 : block3.Stores z)
    (left : x.numbits = y.numbits) (right : x.numbits = z.numbits) : ∃ words,
    combineWords op.onWords block1.words block2.words block3.words block1.dim = some words ∧
      Block.Stores { block1 with words := words }
        ⟨x.numbits, op.apply y.bits z.bits, bounded_apply op left.symm right.symm⟩ := by
  have dim2 : block2.dim = block1.dim := by rw [stores1.dim, stores2.dim, left]
  have dim3 : block3.dim = block1.dim := by rw [stores1.dim, stores3.dim, right]
  obtain ⟨words, combined, length, bits⟩ := combineWords_all op stores1.length
    (stores2.length.trans dim2) (stores3.length.trans dim3)
  refine ⟨words, combined, stores1.replace length rfl fun b => ?_⟩
  have bit2 : bitAt block2.words b = decide (b ∈ y.bits) :=
    Bool.eq_iff_iff.mpr ((stores2.bits b).trans decide_eq_true_iff.symm)
  have bit3 : bitAt block3.words b = decide (b ∈ z.bits) :=
    Bool.eq_iff_iff.mpr ((stores3.bits b).trans decide_eq_true_iff.symm)
  rw [bits, bit2, bit3, op.mem_apply]

theorem vec_combine_eq (op : SetOp) : op.vec_combine = combine op.onWords := by
  cases op <;> rfl

theorem vec_ass_eq (op : SetOp) : ∃ compared, op.vec_ass = combineAss op.onWords compared := by
  cases op with
  | or => exact ⟨false, rfl⟩
  | _ => exact ⟨true, rfl⟩

theorem combine_spec (inv : Inv g s) (op : SetOp) {v1 v2 v3 : vec_t} {x y z : VecSet}
    (value1 : s.value v1 = some x) (value2 : s.value v2 = some y) (value3 : s.value v3 = some z)
    (left : x.numbits = y.numbits) (right : x.numbits = z.numbits) : ∃ g',
    op.vec_combine g v1 v2 v3 = some g' ∧
      Inv g' (s.write v1 ⟨x.numbits, op.apply y.bits z.bits,
        bounded_apply op left.symm right.symm⟩) := by
  rw [vec_combine_eq, combine.eq_def]
  cases v1 with
  | none =>
    cases value1
    have null2 := (inv.null_iff value2).mpr left.symm
    have null3 := (inv.null_iff value3).mpr right.symm
    exact ⟨g, if_pos ⟨null2, null3⟩, inv⟩
  | some p1 =>
    obtain ⟨block1, found1, stores1⟩ := inv.stores p1 x value1
    have some2 : v2 ≠ none := fun null =>
      stores1.positive.ne' (left.trans ((inv.null_iff value2).mp null))
    have some3 : v3 ≠ none := fun null =>
      stores1.positive.ne' (right.trans ((inv.null_iff value3).mp null))
    obtain ⟨p2, rfl⟩ := Option.ne_none_iff_exists'.mp some2
    obtain ⟨p3, rfl⟩ := Option.ne_none_iff_exists'.mp some3
    obtain ⟨block2, found2, stores2⟩ := inv.stores p2 y value2
    obtain ⟨block3, found3, stores3⟩ := inv.stores p3 z value3
    obtain ⟨words, combined, stores⟩ := combine_words op stores1 stores2 stores3 left right
    refine ⟨_, ?_, inv.rewrite value1 stores⟩
    simp only [found1, found2, found3, Option.bind_some]
    rw [if_pos ⟨by rw [stores1.numbits, stores2.numbits, left],
      by rw [stores1.numbits, stores3.numbits, right]⟩, combined]
    rfl

theorem ass_spec (inv : Inv g s) (op : SetOp) {v1 v2 : vec_t} {x y : VecSet}
    (value1 : s.value v1 = some x) (value2 : s.value v2 = some y) (same : x.numbits = y.numbits) :
    ∃ g', op.vec_ass g v1 v2 = some g' ∧
      Inv g' (s.write v1 ⟨x.numbits, op.apply x.bits y.bits, bounded_apply op rfl same.symm⟩) := by
  obtain ⟨compared, shape⟩ := vec_ass_eq op
  rw [shape, combineAss.eq_def]
  cases v1 with
  | none =>
    cases value1
    exact ⟨g, if_pos ((inv.null_iff value2).mpr same.symm), inv⟩
  | some p1 =>
    obtain ⟨block1, found1, stores1⟩ := inv.stores p1 x value1
    have some2 : v2 ≠ none := fun null =>
      stores1.positive.ne' (same.trans ((inv.null_iff value2).mp null))
    obtain ⟨p2, rfl⟩ := Option.ne_none_iff_exists'.mp some2
    obtain ⟨block2, found2, stores2⟩ := inv.stores p2 y value2
    obtain ⟨words, combined, stores⟩ := combine_words op stores1 stores1 stores2 rfl same
    refine ⟨_, ?_, inv.rewrite value1 stores⟩
    have equal : block1.numbits = block2.numbits := by
      rw [stores1.numbits, stores2.numbits, same]
    simp only [found1, found2, Option.bind_some]
    rw [if_neg (by rw [Bool.and_eq_true, decide_eq_true_iff]; exact fun other => other.2 equal),
      combined]
    rfl

theorem clear_spec (inv : Inv g s) {v : vec_t} {x : VecSet} (value : s.value v = some x) :
    ∃ g', vec_clear g v = some g' ∧ Inv g' (s.write v (.empty x.numbits)) := by
  rw [vec_clear.eq_def]
  cases v with
  | none => exact ⟨g, rfl, inv⟩
  | some p =>
    refine inv.modify_spec value fun block stores => ?_
    rw [memset_all stores.length]
    refine ⟨_, rfl, stores.replace List.length_replicate rfl fun b => ?_⟩
    rw [bitAt_zeros]
    exact ⟨nofun, fun member => absurd member (Finset.notMem_empty b)⟩

theorem set_spec (inv : Inv g s) {v : vec_t} {x : VecSet} (value : s.value v = some x) :
    ∃ g', vec_set g v = some g' ∧ Inv g' (s.write v (.full x.numbits)) := by
  rw [vec_set.eq_def]
  cases v with
  | none => exact ⟨g, rfl, inv⟩
  | some p =>
    refine inv.modify_spec value fun block stores => ?_
    have dim := stores.dim
    rw [← stores.numbits] at dim
    rw [memset_all stores.length, Option.bind_some]
    obtain ⟨words, cleared, length, bits⟩ := clearextrabits_spec
      { block with words := List.replicate block.dim (~~~0) } dim
      (by rw [stores.numbits]; exact stores.positive) List.length_replicate
    refine ⟨_, cleared, stores.replace length rfl fun b => ?_⟩
    have place : b % 64 < 64 := Nat.mod_lt _ (by decide)
    have ones : (~~~(0 : Word)).getLsbD (b % 64) = true := by
      rw [BitVec.getLsbD_not, decide_eq_true place, BitVec.ofNat_eq_ofNat, BitVec.getLsbD_zero]
      rfl
    have range : b ∈ (VecSet.full x.numbits).bits ↔ b < x.numbits := Finset.mem_range
    rw [bits, bitAt_replicate, ones, Bool.and_true, Bool.and_eq_true, decide_eq_true_iff,
      decide_eq_true_iff, range]
    show b < block.numbits ∧ b / 64 < block.dim ↔ _
    rw [stores.numbits, stores.dim]
    omega

theorem copy_spec (inv : Inv g s) {v1 v2 : vec_t} {x y : VecSet} (value1 : s.value v1 = some x)
    (value2 : s.value v2 = some y) (same : x.numbits = y.numbits) :
    ∃ g', vec_copy g v1 v2 = some g' ∧ Inv g' (s.write v1 y) := by
  rw [vec_copy]
  by_cases pointer : v1 = v2
  · subst pointer
    rw [if_pos rfl]
    refine ⟨g, rfl, ?_⟩
    cases v1 with
    | none => exact inv
    | some p =>
      have held : s p = some y := value2
      rwa [Vectors.write, ← held, Function.update_eq_self]
  · rw [if_neg pointer]
    have some1 : v1 ≠ none := fun null => pointer (null.trans
      ((inv.null_iff value2).mpr (same.symm.trans ((inv.null_iff value1).mp null))).symm)
    have some2 : v2 ≠ none := fun null =>
      some1 ((inv.null_iff value1).mpr (same.trans ((inv.null_iff value2).mp null)))
    obtain ⟨p1, rfl⟩ := Option.ne_none_iff_exists'.mp some1
    obtain ⟨p2, rfl⟩ := Option.ne_none_iff_exists'.mp some2
    obtain ⟨block2, found2, stores2⟩ := inv.stores p2 y value2
    rw [Option.bind_some, found2, Option.bind_some]
    refine inv.modify_spec value1 fun block1 stores1 => ?_
    have dim2 : block2.dim = block1.dim := by rw [stores1.dim, stores2.dim, same]
    rw [if_pos (by rw [stores1.numbits, stores2.numbits, same]),
      memcpy_all stores1.length (stores2.length.trans dim2)]
    exact ⟨_, rfl, stores1.replace (stores2.length.trans dim2) same.symm stores2.bits⟩

/-! ### Vectors that are compared -/

/-- The blocks of two vectors with equally many bits. -/
theorem both (inv : Inv g s) {v1 v2 : vec_t} {x y : VecSet} (value1 : s.value v1 = some x)
    (value2 : s.value v2 = some y) (same : x.numbits = y.numbits) (some1 : v1 ≠ none) :
    ∃ p1 p2 block1 block2, v1 = some p1 ∧ v2 = some p2 ∧ g.heap p1 = some block1 ∧
      g.heap p2 = some block2 ∧ block1.Stores x ∧ block2.Stores y ∧ block2.dim = block1.dim := by
  have some2 : v2 ≠ none := fun null =>
    some1 ((inv.null_iff value1).mpr (same.trans ((inv.null_iff value2).mp null)))
  obtain ⟨p1, rfl⟩ := Option.ne_none_iff_exists'.mp some1
  obtain ⟨p2, rfl⟩ := Option.ne_none_iff_exists'.mp some2
  obtain ⟨block1, found1, stores1⟩ := inv.stores p1 x value1
  obtain ⟨block2, found2, stores2⟩ := inv.stores p2 y value2
  exact ⟨p1, p2, block1, block2, rfl, rfl, found1, found2, stores1, stores2,
    by rw [stores1.dim, stores2.dim, same]⟩

theorem equal_spec (inv : Inv g s) {v1 v2 : vec_t} {x y : VecSet} (value1 : s.value v1 = some x)
    (value2 : s.value v2 = some y) (same : x.numbits = y.numbits) :
    vec_equal g v1 v2 = some (decide (x.bits = y.bits)) := by
  rw [vec_equal]
  by_cases pointer : v1 = v2
  · subst pointer
    rw [value1] at value2
    cases value2
    rw [if_pos rfl, decide_eq_true rfl]
  · have some1 : v1 ≠ none := fun null => pointer (null.trans
      ((inv.null_iff value2).mpr (same.symm.trans ((inv.null_iff value1).mp null))).symm)
    obtain ⟨p1, p2, block1, block2, rfl, rfl, found1, found2, stores1, stores2, dim2⟩ :=
      inv.both value1 value2 same some1
    have length2 := stores2.length.trans dim2
    rw [if_neg pointer, Option.bind_some, found1, Option.bind_some, Option.bind_some, found2,
      Option.bind_some, if_pos ⟨by rw [stores1.numbits, stores2.numbits, same], stores1.length.ge,
        length2.ge⟩]
    have all1 : block1.words.take block1.dim = block1.words := by
      rw [← stores1.length, List.take_length]
    have all2 : block2.words.take block1.dim = block2.words := by
      rw [← length2, List.take_length]
    rw [all1, all2]
    refine congrArg some (decide_eq_decide.mpr ⟨fun words => ?_, fun bits => ?_⟩)
    · ext b
      rw [← stores1.bits, ← stores2.bits, words]
    · refine eq_of_bitAt (stores1.length.trans length2.symm) fun b => Bool.eq_iff_iff.mpr ?_
      rw [stores1.bits, stores2.bits, bits]

theorem all_zero_iff (words : List Word) :
    (words.all fun word => word = 0) = true ↔ ∀ b, bitAt words b = false := by
  have zeros : (words.all fun word => word = 0) = true ↔
      words = List.replicate words.length 0 := by
    rw [List.eq_replicate_iff, List.all_eq_true]
    simp only [decide_eq_true_iff, true_and]
  rw [zeros]
  constructor
  · intro none b
    rw [none, bitAt_zeros]
  · intro none
    refine eq_of_bitAt List.length_replicate.symm fun b => ?_
    rw [none, bitAt_zeros]

theorem disjoint_spec (inv : Inv g s) {v1 v2 : vec_t} {x y : VecSet} (value1 : s.value v1 = some x)
    (value2 : s.value v2 = some y) (same : x.numbits = y.numbits) (some1 : v1 ≠ none) :
    vec_disjoint g v1 v2 = some (decide (Disjoint x.bits y.bits)) := by
  obtain ⟨p1, p2, block1, block2, rfl, rfl, found1, found2, stores1, stores2, dim2⟩ :=
    inv.both value1 value2 same some1
  have length2 := stores2.length.trans dim2
  obtain ⟨words, combined, stores⟩ := combine_words .and stores1 stores1 stores2 rfl same
  have all1 : block1.words.take block1.dim = block1.words := by
    rw [← stores1.length, List.take_length]
  have all2 : block2.words.take block1.dim = block2.words := by
    rw [← length2, List.take_length]
  rw [combineWords, if_pos ⟨stores1.length.ge, stores1.length.ge, length2.ge⟩, all1, all2,
    ← stores1.length, List.drop_length, List.append_nil] at combined
  cases combined
  rw [vec_disjoint, Option.bind_some, found1, Option.bind_some, Option.bind_some, found2,
    Option.bind_some, if_pos ⟨by rw [stores1.numbits, stores2.numbits, same], stores1.length.ge,
      length2.ge⟩, all1, all2]
  refine congrArg some (Bool.eq_iff_iff.mpr ?_)
  have meets : ((block1.words.zip block2.words).all fun pair => pair.1 &&& pair.2 = 0) =
      ((List.zipWith SetOp.and.onWords block1.words block2.words).all fun word => word = 0) := by
    have zipped : List.zipWith SetOp.and.onWords block1.words block2.words =
        (block1.words.zip block2.words).map fun pair => pair.1 &&& pair.2 :=
      (List.map_zip_eq_zipWith (f := fun pair => pair.1 &&& pair.2)).symm
    rw [zipped, List.all_map]
    rfl
  refine (Bool.eq_iff_iff.mp meets).trans ?_
  rw [all_zero_iff, decide_eq_true_iff, Finset.disjoint_iff_inter_eq_empty,
    Finset.eq_empty_iff_forall_notMem]
  exact forall_congr' fun b => Bool.eq_false_iff.trans (not_congr (stores.bits b))

/-! ### Bits that are read -/

theorem testbit_spec (inv : Inv g s) {v : vec_t} {x : VecSet} (value : s.value v = some x) {b : Nat}
    (inside : b < x.numbits) : vec_testbit g b v = some (decide (b ∈ x.bits)) := by
  rw [vec_testbit.eq_def]
  cases v with
  | none =>
    cases value
    exact absurd inside (Nat.not_lt_zero b)
  | some p =>
    obtain ⟨block, found, stores⟩ := inv.stores p x value
    have bound : b / VECBITS < block.words.length := by
      rw [stores.length, stores.dim, VECBITS_eq]
      omega
    dsimp only
    rw [found, Option.bind_some, if_pos (by rwa [stores.numbits]), List.getElem?_eq_getElem bound,
      Option.map_some]
    refine congrArg some (Bool.eq_iff_iff.mpr (Iff.trans ?_ decide_eq_true_iff.symm))
    rw [← stores.bits, bitAt, ← List.getD_eq_getElem _ 0 bound, VECBITS_eq]

theorem index_spec (inv : Inv g s) {v : vec_t} {x : VecSet} (value : s.value v = some x) (b : Nat) :
    ∃ n, vec_index g b v = some n ∧ x.IsIndex b n := by
  rw [vec_index.eq_def]
  cases v with
  | none =>
    cases value
    exact ⟨0, rfl, .inr ⟨rfl, fun _ member => absurd member (Finset.notMem_empty _)⟩⟩
  | some p =>
    obtain ⟨block, found, stores⟩ := inv.stores p x value
    dsimp only
    rw [found]
    exact stores.index_spec b

theorem numBitsSet_spec (inv : Inv g s) {p : Nat} {x : VecSet} (held : s p = some x) :
    vec_numBitsSet g (some p) = some (x.bits.card % 2 ^ 32) := by
  obtain ⟨block, found, stores⟩ := inv.stores p x held
  rw [vec_numBitsSet, Option.bind_some, found]
  exact stores.count_spec

theorem range_spec (inv : Inv g s) {p : Nat} {x : VecSet} (held : s p = some x) :
    VecRange g (some p) = some (x.bits.sort (· ≤ ·)) := by
  obtain ⟨block, found, stores⟩ := inv.stores p x held
  rw [VecRange, Option.bind_some, found]
  exact stores.range_spec

/-! ### Calls -/

/-- A valid call that is one of those that do what they say does so, and keeps the invariant. -/
theorem step_spec (inv : Inv g s) (op : Op) (valid : op.Valid s) (sized : op.Sized)
    (meets : op.Meets s) :
    ∃ result g' s', step g op = some (result, g') ∧ op.Does s result s' ∧ Inv g' s' := by
  cases op with
  | calloc numbits =>
    obtain ⟨v, g', s', stepped, adds, inv'⟩ := inv.allocate_spec numbits sized
    exact ⟨_, g', s', congrArg (Option.map _) stepped, ⟨v, rfl, adds⟩, inv'⟩
  | clone v =>
    obtain ⟨x, value⟩ := valid
    obtain ⟨v', g', s', stepped, adds, inv'⟩ := inv.dup_spec value
    exact ⟨_, g', s', congrArg (Option.map _) stepped, ⟨x, v', value, rfl, adds⟩, inv'⟩
  | free v =>
    obtain ⟨x, value⟩ := valid
    obtain ⟨g', stepped, inv'⟩ := inv.free_spec value
    exact ⟨_, g', _, congrArg (Option.map _) stepped, ⟨rfl, rfl⟩, inv'⟩
  | realloc v numbits =>
    obtain ⟨-, x, value⟩ := valid
    obtain ⟨v', g', s', stepped, adds, inv'⟩ := inv.realloc_spec value numbits sized
    exact ⟨_, g', s', congrArg (Option.map _) stepped, ⟨x, v', value, rfl, adds⟩, inv'⟩
  | recycle v numbits =>
    obtain ⟨-, x, value⟩ := valid
    obtain ⟨g1, freed, inv1⟩ := inv.free_spec value
    obtain ⟨v', g', s', stepped, adds, inv'⟩ := inv1.allocate_spec numbits sized
    refine ⟨.vec v', g', s', ?_, ⟨v', rfl, adds⟩, inv'⟩
    rw [step, vec_recycle, freed, Option.bind_some, stepped]
    rfl
  | setbit b v =>
    obtain ⟨x, value, inside⟩ := valid
    obtain ⟨g', y, stepped, numbits, bits, inv'⟩ := inv.setbit_spec value inside
    exact ⟨_, g', _, congrArg (Option.map _) stepped, ⟨x, y, value, rfl, rfl, numbits, bits⟩, inv'⟩
  | clearbit b v =>
    obtain ⟨x, value, inside⟩ := valid
    obtain ⟨g', y, stepped, numbits, bits, inv'⟩ := inv.clearbit_spec value inside
    exact ⟨_, g', _, congrArg (Option.map _) stepped, ⟨x, y, value, rfl, rfl, numbits, bits⟩, inv'⟩
  | testbit b v =>
    obtain ⟨x, value, inside⟩ := valid
    exact ⟨_, g, s, congrArg (Option.map _) (inv.testbit_spec value inside), ⟨x, value, rfl, rfl⟩,
      inv⟩
  | index b v =>
    obtain ⟨-, x, value⟩ := valid
    obtain ⟨n, stepped, index⟩ := inv.index_spec value b
    exact ⟨_, g, s, congrArg (Option.map _) stepped, ⟨x, n, value, rfl, index, rfl⟩, inv⟩
  | numBitsSet v =>
    obtain ⟨x, value⟩ := valid
    obtain ⟨some1, few⟩ := meets
    obtain ⟨p, rfl⟩ := Option.ne_none_iff_exists'.mp some1
    refine ⟨.size x.bits.card, g, s, ?_, ⟨x, value, rfl, rfl⟩, inv⟩
    rw [step, inv.numBitsSet_spec value, Nat.mod_eq_of_lt (few x value)]
    rfl
  | range v =>
    obtain ⟨x, value⟩ := valid
    obtain ⟨p, rfl⟩ := Option.ne_none_iff_exists'.mp meets
    exact ⟨_, g, s, congrArg (Option.map _) (inv.range_spec value), ⟨x, value, rfl, rfl⟩, inv⟩
  | ass op v1 v2 =>
    obtain ⟨x, y, value1, value2, same⟩ := valid
    obtain ⟨g', stepped, inv'⟩ := inv.ass_spec op value1 value2 same
    exact ⟨_, g', _, congrArg (Option.map _) stepped,
      ⟨x, y, ⟨_, _, bounded_apply op rfl same.symm⟩, value1, value2, rfl, rfl, rfl, rfl⟩, inv'⟩
  | combine op v1 v2 v3 =>
    obtain ⟨x, y, z, value1, value2, value3, left, right⟩ := valid
    obtain ⟨g', stepped, inv'⟩ := inv.combine_spec op value1 value2 value3 left right
    exact ⟨_, g', _, congrArg (Option.map _) stepped,
      ⟨x, y, z, ⟨_, _, bounded_apply op left.symm right.symm⟩, value1, value2, value3, rfl, rfl, rfl,
        rfl⟩, inv'⟩
  | clear v =>
    obtain ⟨x, value⟩ := valid
    obtain ⟨g', stepped, inv'⟩ := inv.clear_spec value
    exact ⟨_, g', _, congrArg (Option.map _) stepped, ⟨x, value, rfl, rfl⟩, inv'⟩
  | set v =>
    obtain ⟨x, value⟩ := valid
    obtain ⟨g', stepped, inv'⟩ := inv.set_spec value
    exact ⟨_, g', _, congrArg (Option.map _) stepped, ⟨x, value, rfl, rfl⟩, inv'⟩
  | copy v1 v2 =>
    obtain ⟨x, y, value1, value2, same⟩ := valid
    obtain ⟨g', stepped, inv'⟩ := inv.copy_spec value1 value2 same
    exact ⟨_, g', _, congrArg (Option.map _) stepped, ⟨y, value2, rfl, rfl⟩, inv'⟩
  | equal v1 v2 =>
    obtain ⟨x, y, value1, value2, same⟩ := valid
    exact ⟨_, g, s, congrArg (Option.map _) (inv.equal_spec value1 value2 same),
      ⟨x, y, value1, value2, rfl, rfl⟩, inv⟩
  | disjoint v1 v2 =>
    obtain ⟨x, y, value1, value2, same⟩ := valid
    exact ⟨_, g, s, congrArg (Option.map _) (inv.disjoint_spec value1 value2 same meets),
      ⟨x, y, value1, value2, rfl, rfl⟩, inv⟩

/-- The calls that are left out do not what they say. -/
theorem meets_of_step (inv : Inv g s) (op : Op) {result : Result} {g' : VecGlobal} {s' : Vectors}
    (stepped : step g op = some (result, g')) (does : op.Does s result s') : op.Meets s := by
  cases op with
  | numBitsSet v =>
    cases v with
    | none => cases stepped
    | some p =>
      obtain ⟨x, value, counted, -⟩ := does
      rw [step, inv.numBitsSet_spec value, Option.map_some, counted] at stepped
      have card : x.bits.card % 2 ^ 32 = x.bits.card :=
        Result.size.inj (congrArg Prod.fst (Option.some.inj stepped))
      refine ⟨Option.some_ne_none p, fun y value' => ?_⟩
      rw [value] at value'
      cases value'
      rw [← card]
      exact Nat.mod_lt _ (by decide)
  | range v =>
    cases v with
    | none => cases stepped
    | some p => exact Option.some_ne_none p
  | disjoint v1 v2 =>
    cases v1 with
    | none => cases stepped
    | some p => exact Option.some_ne_none p
  | _ => trivial

end Inv

/-- The pointer that is returned says where the vector is. -/
theorem Vectors.Adds.unique {s s' s'' : Vectors} {x : VecSet} {v : vec_t} (adds : s.Adds x v s')
    (adds' : s.Adds x v s'') : s' = s'' := by
  cases v with
  | none => exact adds.2.trans adds'.2.symm
  | some p => exact adds.2.2.trans adds'.2.2.symm

/-- What a call returns says what the vectors are after it. -/
theorem Op.Does.unique {op : Op} {s s' s'' : Vectors} {result : Result}
    (does : op.Does s result s') (does' : op.Does s result s'') : s' = s'' := by
  have same {v : vec_t} {x x' : VecSet} (value : s.value v = some x) (value' : s.value v = some x') :
      x = x' := Option.some.inj (value.symm.trans value')
  cases op with
  | calloc numbits =>
    obtain ⟨v, rfl, adds⟩ := does
    obtain ⟨v', returned, adds'⟩ := does'
    cases returned
    exact adds.unique adds'
  | clone v =>
    obtain ⟨x, v', value, rfl, adds⟩ := does
    obtain ⟨x', v'', value', returned, adds'⟩ := does'
    cases returned
    cases same value value'
    exact adds.unique adds'
  | realloc v numbits =>
    obtain ⟨x, v', value, rfl, adds⟩ := does
    obtain ⟨x', v'', value', returned, adds'⟩ := does'
    cases returned
    cases same value value'
    exact adds.unique adds'
  | recycle v numbits =>
    obtain ⟨v', rfl, adds⟩ := does
    obtain ⟨v'', returned, adds'⟩ := does'
    cases returned
    exact adds.unique adds'
  | free v => exact does.2.trans does'.2.symm
  | setbit b v =>
    obtain ⟨x, y, value, -, rfl, numbits, bits⟩ := does
    obtain ⟨x', y', value', -, rfl, numbits', bits'⟩ := does'
    cases same value value'
    rw [VecSet.ext (numbits.trans numbits'.symm) (bits.trans bits'.symm)]
  | clearbit b v =>
    obtain ⟨x, y, value, -, rfl, numbits, bits⟩ := does
    obtain ⟨x', y', value', -, rfl, numbits', bits'⟩ := does'
    cases same value value'
    rw [VecSet.ext (numbits.trans numbits'.symm) (bits.trans bits'.symm)]
  | testbit b v =>
    obtain ⟨-, -, -, rfl⟩ := does
    obtain ⟨-, -, -, rfl⟩ := does'
    rfl
  | index b v =>
    obtain ⟨-, -, -, -, -, rfl⟩ := does
    obtain ⟨-, -, -, -, -, rfl⟩ := does'
    rfl
  | numBitsSet v =>
    obtain ⟨-, -, -, rfl⟩ := does
    obtain ⟨-, -, -, rfl⟩ := does'
    rfl
  | range v =>
    obtain ⟨-, -, -, rfl⟩ := does
    obtain ⟨-, -, -, rfl⟩ := does'
    rfl
  | ass op v1 v2 =>
    obtain ⟨x, y, z, value1, value2, -, rfl, numbits, bits⟩ := does
    obtain ⟨x', y', z', value1', value2', -, rfl, numbits', bits'⟩ := does'
    cases same value1 value1'
    cases same value2 value2'
    rw [VecSet.ext (numbits.trans numbits'.symm) (bits.trans bits'.symm)]
  | combine op v1 v2 v3 =>
    obtain ⟨x, y, z, w, value1, value2, value3, -, rfl, numbits, bits⟩ := does
    obtain ⟨x', y', z', w', value1', value2', value3', -, rfl, numbits', bits'⟩ := does'
    cases same value1 value1'
    cases same value2 value2'
    cases same value3 value3'
    rw [VecSet.ext (numbits.trans numbits'.symm) (bits.trans bits'.symm)]
  | clear v =>
    obtain ⟨x, value, -, rfl⟩ := does
    obtain ⟨x', value', -, rfl⟩ := does'
    rw [same value value']
  | set v =>
    obtain ⟨x, value, -, rfl⟩ := does
    obtain ⟨x', value', -, rfl⟩ := does'
    rw [same value value']
  | copy to_ from_ =>
    obtain ⟨y, value, -, rfl⟩ := does
    obtain ⟨y', value', -, rfl⟩ := does'
    rw [same value value']
  | equal v1 v2 =>
    obtain ⟨-, -, -, -, -, rfl⟩ := does
    obtain ⟨-, -, -, -, -, rfl⟩ := does'
    rfl
  | disjoint v1 v2 =>
    obtain ⟨-, -, -, -, -, rfl⟩ := does
    obtain ⟨-, -, -, -, -, rfl⟩ := does'
    rfl

theorem Reaches.inv {g : VecGlobal} {s : Vectors} (reaches : Reaches g s) : Inv g s := by
  induction reaches with
  | start => exact inv_start
  | call op reaches valid sized meets stepped does inductionHypothesis =>
    obtain ⟨result, g', s', stepped', does', inv'⟩ :=
      inductionHypothesis.step_spec op valid sized meets
    rw [stepped] at stepped'
    cases stepped'
    rwa [does.unique does']

end LaserD.Dvec
