import Isa16.Proofs.Encoding.RoundTrip
import Isa16.Proofs.Program.Spelling

/-!
# Assembly text

* `digitsValue_upper`, `Hex.upper_injective`: a hexadecimal numeral with zeros in front is read back
  as its number.
* `Operand.valueText_eq`: an operand's value is written as such a numeral between marks that depend
  on the operand alone. So the value is seen in the text (`Operand.valueText_injective`), and no
  text holds a comma.
* `eq_of_intercalate_eq`: texts without a comma are found again when they are joined.
* **`Instruction.eq_of_text_eq`**: words of an operation that are written alike are the same.
-/

namespace Isa16

/-! ## Numerals -/

theorem digitsValue_padded (base count : Nat) (digits : List Char) :
    digitsValue base (Hex.padded count digits) = digitsValue base digits := by
  have hzero : base * 0 + hexDigitValue '0' = 0 := by
    rw [Nat.mul_zero]
    rfl
  have hzeros (n : Nat) : digitsValue base (List.replicate n '0') = 0 := by
    induction n with
    | zero => rfl
    | succ n ih =>
      rw [digitsValue, List.replicate_succ, List.foldl_cons, hzero]
      exact ih
  unfold digitsValue at hzeros ⊢
  rw [Hex.padded, List.foldl_append, hzeros]

theorem digitsValue_upper (count n : Nat) : digitsValue 16 (Hex.upper count n).toList = n := by
  have hupper : digitsValue 16 ((Nat.toDigits 16 n).map Char.toUpper) =
      digitsValue 16 (Nat.toDigits 16 n) := by
    rw [digitsValue, digitsValue, List.foldl_map]
    refine List.foldl_ext _ _ _ fun k c hc => ?_
    obtain ⟨d, hd, rfl⟩ := exists_digitChar_of_mem_toDigits (by decide) le_rfl hc
    rw [hexDigitValue_toUpper hd]
  rw [Hex.upper, String.toList_ofList, digitsValue_padded, hupper,
    digitsValue_toDigits (by decide) le_rfl]

theorem Hex.upper_injective (count : Nat) : Function.Injective (Hex.upper count) :=
  Function.LeftInverse.injective (g := fun s : String => digitsValue 16 s.toList)
    (digitsValue_upper count)

theorem isHexDigit_of_mem_upper {count n : Nat} {c : Char} (h : c ∈ (Hex.upper count n).toList) :
    isHexDigit c = true := by
  rw [Hex.upper, String.toList_ofList, Hex.padded] at h
  rcases List.mem_append.mp h with h | h
  · rw [List.eq_of_mem_replicate h]
    rfl
  · obtain ⟨c, hc, rfl⟩ := List.mem_map.mp h
    obtain ⟨d, hd, rfl⟩ := exists_digitChar_of_mem_toDigits (by decide) le_rfl hc
    exact isHexDigit_toUpper hd

/-! ## Operands -/

/-- What stands in front of a value of the kind, and the least count of its digits. -/
def OperandKind.numeral : OperandKind → String × Nat
  | register => ("V", 1)
  | constant => ("0x", 2)
  | romAddress | ramAddress => ("0x", 3)

namespace Operand

/-- What encloses the text of an operand. -/
def brackets (o : Operand) : String × String :=
  if o.use.indirect then ("[", "]") else ("", "")

theorem valueText_eq (o : Operand) (v : Word) : o.valueText v = o.brackets.1 ++
    (o.kind.numeral.1 ++ Hex.upper o.kind.numeral.2 v.toNat) ++ o.brackets.2 := by
  unfold valueText brackets
  cases o.use.indirect <;> cases o.kind <;> simp [OperandKind.numeral, toString]

/-- **The text of an operand shows its value.** -/
theorem valueText_injective (o : Operand) : Function.Injective o.valueText := by
  intro v w h
  rw [valueText_eq, valueText_eq, String.append_left_inj, String.append_right_inj,
    String.append_right_inj] at h
  exact BitVec.eq_of_toNat_eq (Hex.upper_injective _ h)

theorem comma_not_mem_valueText (o : Operand) (v : Word) : ',' ∉ (o.valueText v).toList := by
  have hfront : ',' ∉ o.brackets.1.toList := by
    unfold brackets
    split <;> decide
  have hback : ',' ∉ o.brackets.2.toList := by
    unfold brackets
    split <;> decide
  have hmark : ',' ∉ o.kind.numeral.1.toList := by
    cases o.kind <;> decide
  have hnumeral : ',' ∉ (Hex.upper o.kind.numeral.2 v.toNat).toList := fun h =>
    absurd (isHexDigit_of_mem_upper h) (by decide)
  rw [valueText_eq]
  simp [hfront, hback, hmark, hnumeral]

end Operand

/-! ## Lists of operands -/

theorem intercalate_comma_cons (cs : List Char) (css : List (List Char)) :
    [',', ' '].intercalate (cs :: css) = [','].intercalate (cs :: css.map (' ' :: ·)) := by
  induction css generalizing cs with
  | nil => rfl
  | cons ds css ih =>
    rw [List.intercalate_cons_cons, ih, List.map_cons, List.intercalate_cons_cons]
    cases css with
    | nil => simp
    | cons es css => simp [List.intercalate_cons_cons]

theorem splitOn_intercalate_comma {cs : List Char} {css : List (List Char)} (hcs : ',' ∉ cs)
    (hcss : ∀ ds ∈ css, ',' ∉ ds) :
    ([',', ' '].intercalate (cs :: css)).splitOn ',' = cs :: css.map (' ' :: ·) := by
  rw [intercalate_comma_cons, List.splitOn_intercalate]
  · refine List.forall_mem_cons.mpr ⟨hcs, List.forall_mem_map.mpr fun ds hds => ?_⟩
    simpa using hcss ds hds
  · exact List.cons_ne_nil _ _

/-- **Texts without a comma are found again** between the commas that join them. -/
theorem eq_of_intercalate_eq {xs ys : List String} (hxs : ∀ s ∈ xs, ',' ∉ s.toList)
    (hys : ∀ s ∈ ys, ',' ∉ s.toList) (hlength : xs.length = ys.length)
    (h : ", ".intercalate xs = ", ".intercalate ys) : xs = ys := by
  cases xs with
  | nil => exact (List.eq_nil_of_length_eq_zero hlength.symm).symm
  | cons x xs =>
    cases ys with
    | nil => cases hlength
    | cons y ys =>
      obtain ⟨hx, hxs⟩ := List.forall_mem_cons.mp hxs
      obtain ⟨hy, hys⟩ := List.forall_mem_cons.mp hys
      have hcomma : ", ".toList = [',', ' '] := rfl
      have hsplit := congrArg (fun s : String => s.toList.splitOn ',') h
      simp only [String.toList_intercalate, List.map_cons, hcomma] at hsplit
      rw [splitOn_intercalate_comma hx (List.forall_mem_map.mpr hxs),
        splitOn_intercalate_comma hy (List.forall_mem_map.mpr hys)] at hsplit
      obtain ⟨hhead, htail⟩ := List.cons.inj hsplit
      have hblank : Function.Injective (List.cons ' ') := fun _ _ h => (List.cons.inj h).2
      have hinj : Function.Injective String.toList := fun _ _ h => String.toList_inj.mp h
      rw [hinj hhead, hinj.list_map (hblank.list_map htail)]

/-! ## Instructions -/

namespace Instruction

variable {op : Operation} {v w : Word}

theorem operandTexts_eq (op : Operation) (w : Word) : (⟨w, op⟩ : Instruction).operandTexts =
    op.operands.map fun o => o.valueText (o.decode w) := by
  show (op.operands.zip (op.decode w)).map (Function.uncurry Operand.valueText) = _
  rw [List.map_uncurry_zip_eq_zipWith, Operation.decode, List.zipWith_map_right, List.zipWith_self]

theorem comma_not_mem_operandTexts (i : Instruction) : ∀ s ∈ i.operandTexts, ',' ∉ s.toList := by
  rw [operandTexts]
  refine List.forall_mem_map.mpr fun p _ => ?_
  exact p.1.comma_not_mem_valueText p.2

theorem operandTexts_eq_of_text_eq
    (h : (⟨v, op⟩ : Instruction).text = (⟨w, op⟩ : Instruction).text) :
    (⟨v, op⟩ : Instruction).operandTexts = (⟨w, op⟩ : Instruction).operandTexts := by
  have hlength : (⟨v, op⟩ : Instruction).operandTexts.length =
      (⟨w, op⟩ : Instruction).operandTexts.length := by
    rw [operandTexts_eq, operandTexts_eq, List.length_map, List.length_map]
  rw [text, text] at h
  split at h
  next hv =>
    rw [hv] at hlength ⊢
    exact (List.eq_nil_of_length_eq_zero hlength.symm).symm
  next hv =>
    split at h
    next hw =>
      rw [hw] at hlength
      exact absurd (List.eq_nil_of_length_eq_zero hlength) hv
    next hw =>
      rw [String.append_right_inj] at h
      exact eq_of_intercalate_eq (comma_not_mem_operandTexts _) (comma_not_mem_operandTexts _)
        hlength h

/-- **Assembly text loses nothing**: words of an operation that are written alike are the same. -/
theorem eq_of_text_eq (hv : op.matchesWord v = true) (hw : op.matchesWord w = true)
    (h : (⟨v, op⟩ : Instruction).text = (⟨w, op⟩ : Instruction).text) : v = w := by
  have htexts := operandTexts_eq_of_text_eq h
  rw [operandTexts_eq, operandTexts_eq, List.map_inj_left] at htexts
  refine op.eq_of_decode_eq hv hw (List.map_congr_left fun o ho => ?_)
  exact o.valueText_injective (htexts o ho)

open Operation in
/-- A word is found again by its text, and a word that differs in one bit is written otherwise. -/
theorem text_interleaved : ∃ w, interleaved.encode [0x0505, 0, 5] = .ok w ∧
    interleaved.matchesWord w = true ∧ interleaved.matchesWord 0xd551 = true ∧
    (⟨w, interleaved⟩ : Instruction).text = "MIX V505, 0x00, 0x05" ∧
    (⟨0xd551, interleaved⟩ : Instruction).text = "MIX V505, 0x00, 0x05" ∧ w = 0xd551 ∧
    interleaved.matchesWord 0x9551 = true ∧
    (⟨0xd551, interleaved⟩ : Instruction).text ≠ (⟨0x9551, interleaved⟩ : Instruction).text := by
  have hmatch : interleaved.matchesWord 0xd551 = true := by decide
  have hother : interleaved.matchesWord 0x9551 = true := by decide
  have htext : (⟨0xd551, interleaved⟩ : Instruction).text = "MIX V505, 0x00, 0x05" := by
    decide +kernel
  have hencode : interleaved.encode [0x0505, 0, 5] = .ok 0xd551 := by rfl
  exact ⟨_, hencode, hmatch, hmatch, htext, htext, eq_of_text_eq hmatch hmatch rfl, hother,
    fun h => absurd (eq_of_text_eq hmatch hother h) (by decide)⟩

end Instruction

end Isa16
