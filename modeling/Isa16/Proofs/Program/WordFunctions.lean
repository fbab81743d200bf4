import Isa16.Program.Resolve
import Isa16.Program.WordLibrary
import Mathlib

/-!
# The functions on words

* `Library.get?_ofList`: in a library of distinct names every name has its entry.
* `get?_arithmeticLibrary`: the entries of the functions on eight and on sixteen bits.
* `onWords_ofWord`, `onWordCount_ofWord`: on words of the width a function never fails.
* `Bits.add_value`, `Bits.add_overflow` and their like: sums and differences with their flags.
* `apply_bitOr`, `apply_eq` and their like: what operators make of words.
-/

namespace Isa16

/-! ## Entries -/

namespace Library

variable {σ : Type}

theorem mem_names {lib : Library σ} {name : String} :
    name ∈ lib.names ↔ (lib.get? name).isSome = true := by
  unfold names get?
  rw [Std.ExtTreeMap.mem_keys, Std.ExtTreeMap.isSome_getElem?_iff_mem]

theorem get?_foldl {entries : List (String × Entry σ)} {lib : Library σ} {name : String}
    (h : name ∉ entries.map Prod.fst) :
    (entries.foldl (fun lib (name, entry) => lib.insert name entry) lib).get? name =
      lib.get? name := by
  induction entries generalizing lib with
  | nil => rfl
  | cons e rest ih =>
    rw [List.map_cons, List.mem_cons, not_or] at h
    rw [List.foldl_cons, ih h.2, get?_insert, if_neg (Ne.symm h.1)]

theorem get?_ofList_of_notMem {entries : List (String × Entry σ)} {name : String}
    (h : name ∉ entries.map Prod.fst) : (ofList entries).get? name = none := by
  rw [ofList, get?_foldl h]
  exact get?_empty name

/-- In a library of distinct names every name has its entry. -/
theorem get?_ofList {entries : List (String × Entry σ)} {name : String} {entry : Entry σ}
    (hnodup : (entries.map Prod.fst).Nodup) (h : (name, entry) ∈ entries) :
    (ofList entries).get? name = some entry := by
  obtain ⟨before, after, rfl⟩ := List.append_of_mem h
  have hafter : name ∉ after.map Prod.fst := by
    rw [List.map_append, List.map_cons] at hnodup
    exact (List.nodup_cons.mp hnodup.of_append_right).1
  rw [ofList, List.foldl_append, List.foldl_cons, get?_foldl hafter, get?_insert, if_pos rfl]

end Library

/-- The names of the functions on words of a width. -/
def wordNames (w : Nat) : List String :=
  (wordFunctions w).map fun e => e.1 ++ toString w

section

variable {σ : Type} {name : String} {f : NamedFn}

theorem map_fst_wordLibrary (w : Nat) :
    ((wordFunctions w).map fun (name, f) =>
      let name := name ++ toString w
      (name, (Entry.function (HostFunction.ofPure (f name)) : Entry σ))).map Prod.fst =
        wordNames w := by
  rw [List.map_map]
  rfl

theorem get?_wordLibrary {w : Nat} (hnodup : (wordNames w).Nodup)
    (h : (name, f) ∈ wordFunctions w) :
    (wordLibrary w : Library σ).get? (name ++ toString w) =
      some (.function (HostFunction.ofPure (f (name ++ toString w)))) := by
  refine Library.get?_ofList ?_ (List.mem_map.mpr ⟨(name, f), h, rfl⟩)
  rwa [map_fst_wordLibrary]

theorem get?_wordLibrary_of_notMem {w : Nat} (h : name ∉ wordNames w) :
    (wordLibrary w : Library σ).get? name = none := by
  refine Library.get?_ofList_of_notMem ?_
  rwa [map_fst_wordLibrary]

/-- The functions on eight bits. -/
theorem get?_arithmeticLibrary_eight (name : String) (h : (name, f) ∈ wordFunctions 8) :
    (arithmeticLibrary : Library σ).get? (name ++ toString 8) =
      some (.function (HostFunction.ofPure (f (name ++ toString 8)))) := by
  have hother : ∀ n ∈ wordNames 8, n ∉ wordNames 16 := by decide
  have hname := hother _ (List.mem_map.mpr ⟨(name, f), h, rfl⟩)
  rw [arithmeticLibrary, Library.get?_extend, get?_wordLibrary_of_notMem hname, Option.none_or,
    get?_wordLibrary (by decide) h]

/-- The functions on sixteen bits. -/
theorem get?_arithmeticLibrary_sixteen (name : String) (h : (name, f) ∈ wordFunctions 16) :
    (arithmeticLibrary : Library σ).get? (name ++ toString 16) =
      some (.function (HostFunction.ofPure (f (name ++ toString 16)))) := by
  rw [arithmeticLibrary, Library.get?_extend, get?_wordLibrary (by decide) h, Option.some_or]

theorem mem_names_arithmeticLibrary (h : name ∈ (arithmeticLibrary : Library σ).names) :
    name ∈ wordNames 8 ∨ name ∈ wordNames 16 := by
  by_contra hno
  rw [not_or] at hno
  rw [Library.mem_names, arithmeticLibrary, Library.get?_extend, get?_wordLibrary_of_notMem hno.1,
    get?_wordLibrary_of_notMem hno.2] at h
  cases h

end

/-! ## Words as arguments -/

/-- An integer is a word when it is in the word's range. -/
theorem Bits.fits_iff {w : Nat} {n : Int} : fits w n = true ↔ 0 ≤ n ∧ n < 2 ^ w := by
  simp [fits]

section

variable {w : Nat}

theorem toInt_ofNat_toNat (hw : w ≤ 32) (a : BitVec w) :
    (Int64.ofNat a.toNat).toInt = a.toNat := by
  refine Int64.toInt_ofNat_of_lt ?_
  exact lt_of_lt_of_le a.isLt (le_trans (Nat.pow_le_pow_right (by norm_num) hw) (by norm_num))

theorem wordArgument_ofWord (hw : w ≤ 32) {function : String} {args : List Value} {index : Nat}
    {a : BitVec w} (h : args[index]? = some (.ofWord a)) :
    wordArgument w function args index = .ok a := by
  have hfits : Bits.fits w (a.toNat : Int) = true :=
    Bits.fits_iff.mpr ⟨Int.natCast_nonneg _, by exact_mod_cast a.isLt⟩
  unfold wordArgument intArgument
  rw [h]
  show (if Bits.fits w (Int64.ofNat a.toNat).toInt = true then _ else _) = _
  rw [toInt_ofNat_toNat hw, if_pos hfits]
  simp [pure, Except.pure]

/-- A function of two words, given words. -/
theorem onWords_ofWord (hw : w ≤ 32) (f : BitVec w → BitVec w → Value) (name : String)
    (a b : BitVec w) : onWords w f name [.ofWord a, .ofWord b] = .ok (f a b) := by
  unfold onWords
  rw [wordArgument_ofWord hw rfl, wordArgument_ofWord hw rfl]
  rfl

/-- A function of a word and a count, given a word and a literal. -/
theorem onWordCount_ofWord (hw : w ≤ 32) (f : BitVec w → Nat → BitVec w) (name : String)
    (a : BitVec w) {n : Nat} (hn : n < 2 ^ 32) :
    onWordCount w f name [.ofWord a, .ofNat n] = .ok (.ofWord (f a n)) := by
  have hcount : countArgument name [.ofWord a, .ofNat n] 1 = .ok n := by
    have htoInt : (Int64.ofNat n).toInt = n := Int64.toInt_ofNat_of_lt (by omega)
    have hfits : Bits.fits 32 (n : Int) = true :=
      Bits.fits_iff.mpr ⟨Int.natCast_nonneg _, by exact_mod_cast hn⟩
    unfold countArgument intArgument
    show (if Bits.fits 32 (Int64.ofNat n).toInt = true then _ else _) = _
    rw [htoInt, if_pos hfits]
    rfl
  unfold onWordCount
  rw [wordArgument_ofWord hw rfl, hcount]
  rfl

end

namespace Bits

variable {w : Nat} (a b : BitVec w)

theorem add_value : (add a b).value = a + b := by
  rw [add, wrap, BitVec.ofInt_add, BitVec.ofInt_natCast, BitVec.ofInt_natCast]
  simp

theorem sub_value : (sub a b).value = a - b := by
  rw [sub, wrap, Int.sub_eq_add_neg, BitVec.ofInt_add, BitVec.ofInt_neg, BitVec.ofInt_natCast,
    BitVec.ofInt_natCast]
  simp [BitVec.sub_eq_add_neg]

theorem add_overflow : (add a b).overflow = decide (2 ^ w ≤ a.toNat + b.toNat) := by
  show (!fits w ((a.toNat : Int) + b.toNat)) = _
  rw [Bool.eq_iff_iff, Bool.not_eq_true', ← Bool.not_eq_true, fits_iff, decide_eq_true_eq]
  constructor
  · intro h
    by_contra hlt
    exact h ⟨by omega, by exact_mod_cast not_le.mp hlt⟩
  · rintro h ⟨-, hlt⟩
    exact absurd h (not_le.mpr (by exact_mod_cast hlt))

theorem sub_overflow : (sub a b).overflow = decide (a.toNat < b.toNat) := by
  have ha : (a.toNat : Int) < 2 ^ w := by exact_mod_cast a.isLt
  show (!fits w ((a.toNat : Int) - b.toNat)) = _
  rw [Bool.eq_iff_iff, Bool.not_eq_true', ← Bool.not_eq_true, fits_iff, decide_eq_true_eq]
  constructor
  · intro h
    by_contra hlt
    exact h ⟨by omega, by omega⟩
  · rintro h ⟨hpos, -⟩
    omega

end Bits

/-! ## Words under operators -/

section

variable {w : Nat}

theorem ofNat_toNat_eq (a : BitVec w) : Int64.ofNat a.toNat = Int64.ofBitVec (a.setWidth 64) := by
  apply Int64.toBitVec_inj.mp
  simp

theorem ofWord_setWidth (w' : Nat) (h : w ≤ w') (a : BitVec w) :
    Value.ofWord (a.setWidth w') = .ofWord a := by
  rw [Value.ofWord, BitVec.toNat_setWidth_of_le h, Value.ofWord]

theorem apply_bitOr (a b : BitVec w) :
    BinaryOp.bitOr.apply (.ofWord a) (.ofWord b) = .ok (.ofWord (a ||| b)) := by
  show Except.ok (Value.int (Int64.ofNat a.toNat ||| Int64.ofNat b.toNat)) = _
  rw [Value.ofWord, ofNat_toNat_eq, ofNat_toNat_eq, ofNat_toNat_eq, BitVec.setWidth_or]
  rfl

theorem apply_bitAnd (a b : BitVec w) :
    BinaryOp.bitAnd.apply (.ofWord a) (.ofWord b) = .ok (.ofWord (a &&& b)) := by
  show Except.ok (Value.int (Int64.ofNat a.toNat &&& Int64.ofNat b.toNat)) = _
  rw [Value.ofWord, ofNat_toNat_eq, ofNat_toNat_eq, ofNat_toNat_eq, BitVec.setWidth_and]
  rfl

theorem apply_bitXor (a b : BitVec w) :
    BinaryOp.bitXor.apply (.ofWord a) (.ofWord b) = .ok (.ofWord (a ^^^ b)) := by
  show Except.ok (Value.int (Int64.ofNat a.toNat ^^^ Int64.ofNat b.toNat)) = _
  rw [Value.ofWord, ofNat_toNat_eq, ofNat_toNat_eq, ofNat_toNat_eq, BitVec.setWidth_xor]
  rfl

theorem ofWord_inj (hw : w ≤ 32) {a b : BitVec w} :
    Value.ofWord a = .ofWord b ↔ a = b := by
  refine ⟨fun h => ?_, congrArg _⟩
  have hint : (Int64.ofNat a.toNat).toInt = (Int64.ofNat b.toNat).toInt :=
    congrArg Int64.toInt (Value.int.inj h)
  rw [toInt_ofNat_toNat hw, toInt_ofNat_toNat hw] at hint
  exact BitVec.eq_of_toNat_eq (by exact_mod_cast hint)

theorem alike_ofWord (hw : w ≤ 32) (a b : BitVec w) :
    (Value.ofWord a).alike (.ofWord b) = decide (a = b) := by
  show decide (Int64.ofNat a.toNat = Int64.ofNat b.toNat) = _
  refine decide_eq_decide.mpr ?_
  rw [← ofWord_inj hw, Value.ofWord, Value.ofWord, Value.int.injEq]

theorem apply_eq (hw : w ≤ 32) (a b : BitVec w) :
    BinaryOp.eq.apply (.ofWord a) (.ofWord b) = .ok (.bool (a = b)) := by
  show Except.ok (Value.bool ((Value.ofWord a).alike (.ofWord b))) = _
  rw [alike_ofWord hw]

theorem apply_ne (hw : w ≤ 32) (a b : BitVec w) :
    BinaryOp.ne.apply (.ofWord a) (.ofWord b) = .ok (.bool (a ≠ b)) := by
  show Except.ok (Value.bool !(Value.ofWord a).alike (.ofWord b)) = _
  rw [alike_ofWord hw, decide_not]

end

end Isa16
