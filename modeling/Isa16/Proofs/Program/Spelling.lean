import Isa16.Program.Snippet
import Isa16.Proofs.Program.Lexing
import Mathlib.Data.List.TakeWhile

/-!
# How lexemes are written

* `cuts_symbol`, `isPlain_of_isIdentifier`, `isPlain_entry`: symbols and names.
* `digitsValue_toDigits`: digits spell the number that they are of.
* `cuts_number`, `numeralValue?_toString`: numbers in decimal digits.
* **`isIndexText_iff`**: an index is a number below `2 ^ 63` in canonical digits.
* **`readText_quoted`**: the quoted form of a text, whatever the text, is read back as the text.
-/

namespace Isa16

variable {c d : Char} {cs ds rest : List Char} {ls : List Lexeme} {o : Bool}

/-! ## Symbols and names -/

theorem isBlank_of_ofChar? {s : Symbol} (h : Symbol.ofChar? c = some s) : isBlank c = false := by
  unfold Symbol.ofChar? at h
  split at h <;> first | rfl | cases h

theorem readPiece_symbol {s : Symbol} (h : Symbol.ofChar? c = some s)
    (hpair : cs.head?.bind (Symbol.ofPair? c) = none) :
    readPiece c cs = .ok ⟨.symbol s, [c], cs⟩ := by
  unfold readPiece
  simp only [hpair, h]

/-- A symbol that no character makes part of another symbol. -/
theorem cuts_symbol {s : Symbol} (h : Symbol.ofChar? c = some s)
    (hpair : ∀ d, Symbol.ofPair? c d = none) (hslash : c ≠ '/') (hrest : Cuts false cs ls o) :
    Cuts false (c :: cs) (.symbol s :: ls) o := by
  have hnone : cs.head?.bind (Symbol.ofPair? c) = none := by
    cases cs with
    | nil => rfl
    | cons d ds => exact hpair d
  exact cuts_cons (isBlank_of_ofChar? h) (fun hc => hslash hc.1) (readPiece_symbol h hnone) hrest

theorem cuts_leftParen (h : Cuts false cs ls o) :
    Cuts false ('(' :: cs) (.symbol .leftParen :: ls) o :=
  cuts_symbol rfl (fun _ => rfl) (by decide) h

theorem cuts_rightParen : Cuts false [')'] [.symbol .rightParen] false :=
  cuts_symbol rfl (fun _ => rfl) (by decide) cuts_nil

theorem cuts_of_isPlain {l : Lexeme} (h : l.IsPlain) : Cuts false l.shown.toList [l] false := by
  obtain ⟨c, cs, hcs, hblank, hcomment, hread⟩ := h [] .ending
  rw [List.append_nil] at hcs
  rw [hcs] at hread ⊢
  exact cuts_cons hblank hcomment hread cuts_nil

theorem isNameStart_of_alpha (h : (c.isAlpha || decide (c = '_')) = true) :
    isNameStart c = true := by
  simp only [isNameStart, Bool.or_eq_true, decide_eq_true_eq] at h ⊢
  exact Or.inl h

theorem isNamePart_of_alphanum (h : (c.isAlphanum || decide (c = '_')) = true) :
    isNamePart c = true := by
  simp only [isNamePart, isNameStart, Char.isAlphanum, Bool.or_eq_true, decide_eq_true_eq] at h ⊢
  tauto

theorem isIdentifier_cases {name : String} (h : isIdentifier name = true) :
    ∃ c cs, name.toList = c :: cs ∧ isNameStart c = true ∧ ∀ d ∈ cs, isNamePart d = true := by
  unfold isIdentifier at h
  split at h
  · cases h
  next c cs hname =>
    obtain ⟨hc, hcs⟩ := Bool.and_eq_true_iff.mp h
    exact ⟨c, cs, hname, isNameStart_of_alpha hc, fun d hd =>
      isNamePart_of_alphanum (List.all_eq_true.mp hcs d hd)⟩

theorem isPlain_of_isIdentifier {name : String} (h : isIdentifier name = true) :
    (Lexeme.identifier name).IsPlain := by
  obtain ⟨c, cs, hname, hc, hcs⟩ := isIdentifier_cases h
  exact isPlain_identifier hname hc hcs

theorem isPlain_entry {name : String} (h : isIdentifier name = true) :
    (Lexeme.identifier (Snippet.entry name)).IsPlain := by
  obtain ⟨c, cs, hname, hc, hcs⟩ := isIdentifier_cases h
  have hentry : (Snippet.entry name).toList = '$' :: c :: cs := by
    show ("$" ++ name).toList = _
    simp [hname]
  refine isPlain_identifier hentry rfl (List.forall_mem_cons.mpr ⟨?_, hcs⟩)
  simp [isNamePart, hc]

/-! ## Numbers -/

theorem hexDigitValue_digitChar {n : Nat} (h : n < 16) : hexDigitValue n.digitChar = n := by
  interval_cases n <;> rfl

theorem isHexDigit_digitChar {n : Nat} (h : n < 16) : isHexDigit n.digitChar = true := by
  interval_cases n <;> rfl

theorem hexDigitValue_toUpper {n : Nat} (h : n < 16) :
    hexDigitValue n.digitChar.toUpper = hexDigitValue n.digitChar := by
  interval_cases n <;> rfl

theorem isHexDigit_toUpper {n : Nat} (h : n < 16) : isHexDigit n.digitChar.toUpper = true := by
  interval_cases n <;> rfl

theorem exists_digitChar_of_mem_toDigits {b n : Nat} (hb : 1 < b) (hb' : b ≤ 16)
    (h : c ∈ Nat.toDigits b n) : ∃ d < 16, c = d.digitChar := by
  induction n using Nat.strong_induction_on with
  | _ n ih =>
    rw [Nat.toDigits_eq_if hb] at h
    split at h
    next hn => exact ⟨n, hn.trans_le hb', List.mem_singleton.mp h⟩
    next hn =>
      rcases List.mem_append.mp h with h | h
      · exact ih (n / b) (Nat.div_lt_self (by omega) hb) h
      · exact ⟨n % b, (Nat.mod_lt n (by omega)).trans_le hb', List.mem_singleton.mp h⟩

theorem isHexDigit_of_mem_toDigits {b n : Nat} (hb : 1 < b) (hb' : b ≤ 16)
    (h : c ∈ Nat.toDigits b n) : isHexDigit c = true := by
  obtain ⟨d, hd, rfl⟩ := exists_digitChar_of_mem_toDigits hb hb' h
  exact isHexDigit_digitChar hd

theorem digitsValue_toDigits {b n : Nat} (hb : 1 < b) (hb' : b ≤ 16) :
    digitsValue b (Nat.toDigits b n) = n := by
  induction n using Nat.strong_induction_on with
  | _ n ih =>
    rw [Nat.toDigits_eq_if hb]
    split
    next hn =>
      simp only [digitsValue, List.foldl_cons, List.foldl_nil, Nat.mul_zero, Nat.zero_add]
      exact hexDigitValue_digitChar (hn.trans_le hb')
    next hn =>
      have hlast := hexDigitValue_digitChar ((Nat.mod_lt n (by omega)).trans_le hb')
      have hfront := ih (n / b) (Nat.div_lt_self (by omega) hb)
      simp only [digitsValue, List.foldl_append, List.foldl_cons, List.foldl_nil] at hfront ⊢
      rw [hfront, hlast, Nat.div_add_mod]

theorem isDigit_of_mem_toDigits {n : Nat} (h : c ∈ Nat.toDigits 10 n) : c.isDigit = true :=
  Nat.isDigit_of_mem_toDigits (by decide) (by decide) h

theorem toNat_of_isDigit (h : c.isDigit = true) : 48 ≤ c.toNat ∧ c.toNat ≤ 57 := by
  simp only [Char.isDigit, Bool.and_eq_true, decide_eq_true_eq, ge_iff_le,
    UInt32.le_iff_toNat_le] at h
  exact h

theorem isDigit_decimal (h : c.isDigit = true) : Radix.decimal.isDigit c = true := by
  have hle := (toNat_of_isDigit h).2
  have hvalue : hexDigitValue c = c.toNat - 48 := if_pos h
  simp only [Radix.isDigit, isHexDigit, h, Bool.true_or, Bool.true_and, decide_eq_true_eq, hvalue,
    Radix.base]
  omega

theorem isPart_decimal (h : c.isDigit = true) : Radix.decimal.isPart c = true := by
  simp [Radix.isPart, isDigit_decimal h]

theorem splitMark_of_isPart (h : ∀ c ∈ cs, Radix.decimal.isPart c = true) :
    splitMark cs = (.decimal, [], cs) := by
  unfold splitMark
  split
  next letter cs =>
    have hpart := h letter (by simp)
    have hletter : Radix.ofLetter? letter = none := by
      unfold Radix.ofLetter?
      split <;> first | rfl | exact absurd hpart (by decide)
    rw [hletter]
  · rfl

theorem splitMark_digits (h : ∀ c ∈ cs, c.isDigit = true) : splitMark cs = (.decimal, [], cs) :=
  splitMark_of_isPart fun c hc => isPart_decimal (h c hc)

/-- The mark is found again in front of the digits that go with it. -/
theorem splitMark_takeWhile {r : Radix} {mark body : List Char}
    (h : splitMark cs = (r, mark, body)) :
    splitMark (mark ++ body.takeWhile r.isPart) = (r, mark, body.takeWhile r.isPart) := by
  have hplain : splitMark ([] ++ body.takeWhile Radix.decimal.isPart) =
      (.decimal, [], body.takeWhile Radix.decimal.isPart) :=
    splitMark_of_isPart fun _ => List.mem_takeWhile_imp
  unfold splitMark at h
  split at h
  · split at h
    next r' hletter =>
      cases h
      simp [splitMark, hletter]
    · cases h
      exact hplain
  · cases h
    exact hplain

/-- A number is read back from the characters that it was read from. -/
theorem readNumber_span {span : List Char} (h : readNumber cs = .ok (span, rest)) :
    readNumber span = .ok (span, []) := by
  unfold readNumber at h
  rcases hmark : splitMark cs with ⟨r, mark, body⟩
  rw [hmark] at h
  dsimp only at h
  split_ifs at h with hdigits
  cases h
  have hparts : ∀ c ∈ body.takeWhile r.isPart, r.isPart c = true := fun _ => List.mem_takeWhile_imp
  unfold readNumber
  simp only [splitMark_takeWhile hmark, List.takeWhile_eq_self_iff.mpr hparts,
    List.dropWhile_eq_nil_iff.mpr hparts, hdigits]
  rfl

theorem readNumber_digits (hne : cs ≠ []) (h : ∀ c ∈ cs, c.isDigit = true) :
    readNumber cs = .ok (cs, []) := by
  have hparts : ∀ c ∈ cs, Radix.decimal.isPart c = true := fun c hc => isPart_decimal (h c hc)
  have hany : cs.any Radix.decimal.isDigit = true := by
    obtain ⟨c, hc⟩ := List.exists_mem_of_ne_nil cs hne
    exact List.any_eq_true.mpr ⟨c, hc, isDigit_decimal (h c hc)⟩
  unfold readNumber
  simp only [splitMark_digits h, List.takeWhile_eq_self_iff.mpr hparts,
    List.dropWhile_eq_nil_iff.mpr hparts, hany]
  rfl

theorem readPiece_of_isDigit (hc : c.isDigit = true) (cs : List Char) :
    readPiece c cs = (readNumber (c :: cs)).map fun (span, rest) =>
      ⟨.number (String.ofList span), span, rest⟩ := by
  have hpair : cs.head?.bind (Symbol.ofPair? c) = none := by
    cases cs with
    | nil => rfl
    | cons d ds =>
      show Symbol.ofPair? c d = none
      unfold Symbol.ofPair?
      split <;> first | rfl | cases hc
  have hsymbol : Symbol.ofChar? c = none := by
    unfold Symbol.ofChar?
    split <;> first | rfl | cases hc
  have hquote : ¬ (c = '"' ∨ c = '\'') := by
    rintro (rfl | rfl) <;> cases hc
  unfold readPiece
  simp only [hpair, hsymbol, if_neg hquote, hc, if_true]

theorem isBlank_of_isDigit (hc : c.isDigit = true) : isBlank c = false := by
  have h := toNat_of_isDigit hc
  simp only [isBlank, blankRanges, List.any_eq_false, List.forall_mem_cons, Bool.and_eq_true,
    decide_eq_true_eq, List.not_mem_nil, false_imp_iff, implies_true, and_true]
  omega

/-- The characters that a number is read from are cut into the number alone. -/
theorem cuts_of_readNumber {span : List Char} (hc : c.isDigit = true)
    (h : readNumber (c :: cs) = .ok (span, rest)) :
    Cuts false span [.number (String.ofList span)] false := by
  have hspan := readNumber_span h
  obtain ⟨d, span, rfl⟩ := List.exists_cons_of_ne_nil (readNumber_span_ne_nil h)
  obtain ⟨rfl, -⟩ := List.cons.inj (readNumber_append h)
  have hread := readPiece_of_isDigit hc span
  rw [hspan] at hread
  have hslash : d ≠ '/' := by
    rintro rfl
    cases hc
  exact cuts_cons (isBlank_of_isDigit hc) (fun hd => hslash hd.1) hread cuts_nil

theorem cuts_number (n : Nat) : Cuts false (toString n).toList [.number (toString n)] false := by
  have hdigits : ∀ c ∈ Nat.toDigits 10 n, c.isDigit = true := fun c => isDigit_of_mem_toDigits
  have hnumber := readNumber_digits Nat.toDigits_ne_nil hdigits
  rw [Nat.toString_eq_ofList_toDigits, String.toList_ofList]
  cases hcs : Nat.toDigits 10 n with
  | nil => exact absurd hcs Nat.toDigits_ne_nil
  | cons c cs =>
    rw [hcs] at hdigits hnumber
    exact cuts_of_readNumber (hdigits c List.mem_cons_self) hnumber

theorem numeralValue?_toString {n : Nat} (h : n < 2 ^ 63) :
    numeralValue? (toString n).toList = some (Int64.ofNat n) := by
  have hdigits : ∀ c ∈ Nat.toDigits 10 n, c.isDigit = true := fun c => isDigit_of_mem_toDigits
  have hfilter : (Nat.toDigits 10 n).filter (· ≠ '_') = Nat.toDigits 10 n := by
    refine List.filter_eq_self.mpr fun c hc => ?_
    have hdigit := hdigits c hc
    refine decide_eq_true ?_
    rintro rfl
    cases hdigit
  have hall : (Nat.toDigits 10 n).all Radix.decimal.isDigit = true :=
    List.all_eq_true.mpr fun c hc => isDigit_decimal (hdigits c hc)
  rw [Nat.toString_eq_ofList_toDigits, String.toList_ofList]
  unfold numeralValue?
  simp only [hfilter, splitMark_digits hdigits, if_true, hall]
  rw [show Radix.decimal.base = 10 from rfl, digitsValue_toDigits (by decide) (by decide)]
  exact if_pos (by simpa [List.isEmpty_eq_false_iff, Nat.toDigits_ne_nil] using h)

/-! ## Indices -/

theorem toDigits_of_isDigit (h : c.isDigit = true) : Nat.toDigits 10 (c.toNat - 48) = [c] := by
  have hc := toNat_of_isDigit h
  rw [Nat.toDigits_of_lt_base (by omega)]
  congr 1
  apply Char.toNat_inj.mp
  rw [Nat.toNat_digitChar_of_lt_ten (by omega)]
  omega

theorem toDigits_append {n : Nat} (hn : 0 < n) (h : ∀ c ∈ cs, c.isDigit = true) :
    Nat.toDigits 10 n ++ cs = Nat.toDigits 10 (Nat.ofDigitChars 10 cs n) := by
  induction cs generalizing n with
  | nil => rw [List.append_nil, Nat.ofDigitChars_nil]
  | cons c cs ih =>
    obtain ⟨hc, hcs⟩ := List.forall_mem_cons.mp h
    have hle := (toNat_of_isDigit hc).2
    have hnext := Nat.toDigits_append_toDigits (b := 10) (n := n) (d := c.toNat - 48)
      (by decide) hn (by omega)
    rw [toDigits_of_isDigit hc] at hnext
    calc Nat.toDigits 10 n ++ c :: cs = (Nat.toDigits 10 n ++ [c]) ++ cs := by simp
      _ = Nat.toDigits 10 (10 * n + (c.toNat - 48)) ++ cs := by rw [hnext]
      _ = Nat.toDigits 10 (Nat.ofDigitChars 10 (c :: cs) n) := by
        rw [ih (by omega) hcs, Nat.ofDigitChars_cons]
        rfl

/-- Digits without a zero in front are those of the number that they spell. -/
theorem toDigits_ofDigitChars (hc : c ≠ '0') (h : ∀ d ∈ c :: cs, d.isDigit = true) :
    Nat.toDigits 10 (Nat.ofDigitChars 10 (c :: cs) 0) = c :: cs := by
  obtain ⟨hdigit, hcs⟩ := List.forall_mem_cons.mp h
  have hpos : 0 < c.toNat - 48 := by
    have hle := (toNat_of_isDigit hdigit).1
    have hne : c.toNat ≠ 48 := fun heq => hc (Char.toNat_inj.mp heq)
    omega
  have happend := toDigits_append hpos hcs
  rw [toDigits_of_isDigit hdigit] at happend
  rw [Nat.ofDigitChars_cons, Nat.mul_zero, Nat.zero_add]
  exact happend.symm

theorem head_toDigits_ne {n : Nat} (hn : 0 < n) (h : Nat.toDigits 10 n = c :: cs) : c ≠ '0' := by
  induction n using Nat.strong_induction_on generalizing cs with
  | _ n ih =>
    rw [Nat.toDigits_eq_if (by decide)] at h
    split at h
    next hlt =>
      cases h
      have hnine : n ≤ 9 := by omega
      interval_cases n <;> decide
    next hle =>
      cases hfront : Nat.toDigits 10 (n / 10) with
      | nil => exact absurd hfront Nat.toDigits_ne_nil
      | cons d ds =>
        rw [hfront] at h
        cases h
        exact ih (n / 10) (by omega) (by omega) hfront

/-- **An index is a number below `2 ^ 63` in canonical digits.** -/
theorem isIndexText_iff {s : String} :
    Snippet.isIndexText s = true ↔ ∃ n, s = toString n ∧ n < 2 ^ 63 := by
  unfold Snippet.isIndexText
  constructor
  · intro h
    split at h
    · cases h
    next hs => exact ⟨0, String.toList_inj.mp hs, by decide⟩
    next c cs _ hs =>
      simp only [Bool.and_eq_true, decide_eq_true_eq, ne_eq, List.all_eq_true] at h
      obtain ⟨⟨hc, hdigits⟩, hlt⟩ := h
      refine ⟨Nat.ofDigitChars 10 (c :: cs) 0, ?_, hlt⟩
      rw [Nat.toString_eq_ofList_toDigits, toDigits_ofDigitChars hc hdigits, ← hs,
        String.ofList_toList]
  · rintro ⟨n, rfl, hn⟩
    have hdigits : ∀ c ∈ Nat.toDigits 10 n, c.isDigit = true := fun c => isDigit_of_mem_toDigits
    have hvalue : Nat.ofDigitChars 10 (Nat.toDigits 10 n) 0 = n := Nat.ofDigitChars_ten_toDigits
    rw [Nat.toString_eq_ofList_toDigits, String.toList_ofList]
    split
    next hnil => exact absurd hnil Nat.toDigits_ne_nil
    · rfl
    next c cs hzero hcs =>
      have hpos : 0 < n := Nat.pos_of_ne_zero fun h0 => by
        rw [h0] at hcs
        cases hcs
        exact hzero rfl rfl
      have hc := head_toDigits_ne hpos hcs
      have hbound : n < 0x8000000000000000 := by omega
      rw [hcs] at hdigits hvalue
      rw [hvalue, List.all_eq_true.mpr hdigits, decide_eq_true hc, decide_eq_true hbound]
      rfl

/-! ## String literals -/

theorem charOfCodePoint?_toNat (c : Char) : charOfCodePoint? c.toNat = some c := by
  unfold charOfCodePoint?
  rw [if_pos (show c.toNat.isValidChar from c.valid), Char.ofNat_toNat]

theorem readCodePoint_toDigits (c : Char) (rest : List Char) :
    readCodePoint ('{' :: (Nat.toDigits 16 c.toNat ++ '}' :: rest)) =
      .ok (c, '{' :: Nat.toDigits 16 c.toNat ++ ['}'], rest) := by
  have hhex : ∀ d ∈ Nat.toDigits 16 c.toNat, isHexDigit d = true := fun d =>
    isHexDigit_of_mem_toDigits (by decide) (by decide)
  have hbrace : isHexDigit '}' = false := by decide
  rw [readCodePoint]
  simp only [takeWhile_append_border hbrace, dropWhile_append_border hbrace,
    List.takeWhile_eq_self_iff.mpr hhex, List.dropWhile_eq_nil_iff.mpr hhex, List.nil_append,
    if_neg Nat.toDigits_ne_nil, digitsValue_toDigits (show 1 < 16 by decide) le_rfl,
    charOfCodePoint?_toNat]

theorem readEscape_letter {letter : Char} (h : escapeLetter? c = some letter) (rest : List Char) :
    readEscape (letter :: rest) = .ok (c, [letter], rest) := by
  unfold escapeLetter? at h
  split at h <;> cases h <;> rfl

theorem ne_of_escapeLetter? (h : escapeLetter? c = none) : c ≠ '\\' ∧ c ≠ '\n' ∧ c ≠ '"' := by
  refine ⟨?_, ?_, ?_⟩ <;> rintro rfl <;> cases h

/-- A character is read back in each of the three ways in which it may be written. -/
theorem readText_quotedChar (c : Char) (rest : List Char) :
    readText '"' (Snippet.quotedChar c ++ rest) =
      (readText '"' rest).map fun (contents, span, rest) =>
        (c :: contents, Snippet.quotedChar c ++ span, rest) := by
  unfold Snippet.quotedChar
  split
  next letter hletter => exact readText_escape (readEscape_letter hletter rest)
  next hnone =>
    obtain ⟨hslash, hline, hquote⟩ := ne_of_escapeLetter? hnone
    split
    · have hread : readEscape ('u' :: '{' :: (Nat.toDigits 16 c.toNat ++ '}' :: rest)) =
          .ok (c, 'u' :: '{' :: Nat.toDigits 16 c.toNat ++ ['}'], rest) := by
        rw [readEscape, readCodePoint_toDigits]
        rfl
      have htext : readText '"' _ = _ := readText_escape hread
      simpa [codePointEscape] using htext
    · exact readText_plain hslash hline hquote rest

/-- **The quoted form of a text is read back as the text.** -/
theorem readText_quoted (cs rest : List Char) :
    readText '"' (cs.flatMap Snippet.quotedChar ++ '"' :: rest) =
      .ok (cs, cs.flatMap Snippet.quotedChar ++ ['"'], rest) := by
  induction cs with
  | nil => exact readText_quote (by decide) (by decide) rest
  | cons c cs ih =>
    rw [List.flatMap_cons, List.append_assoc, readText_quotedChar, ih]
    simp [Except.map]

/-- A string literal is one lexeme, whatever follows. -/
theorem readPiece_quoted (s : String) (rest : List Char) :
    readPiece '"' (s.toList.flatMap Snippet.quotedChar ++ '"' :: rest) =
      .ok ⟨.text s, (Snippet.stringLiteral s).toList, rest⟩ := by
  have hpair : (s.toList.flatMap Snippet.quotedChar ++ '"' :: rest).head?.bind
      (Symbol.ofPair? '"') = none := by
    cases (s.toList.flatMap Snippet.quotedChar ++ '"' :: rest).head? <;> rfl
  unfold readPiece
  simp only [hpair, show Symbol.ofChar? '"' = none from rfl, true_or, if_true, readText_quoted,
    Except.map, String.ofList_toList]
  simp [Snippet.stringLiteral, quotedWith]

theorem cuts_text (s : String) : Cuts false (Snippet.stringLiteral s).toList [.text s] false := by
  have hread := readPiece_quoted s []
  unfold Snippet.stringLiteral quotedWith
  rw [String.toList_ofList]
  exact cuts_cons (by decide) (by simp) hread cuts_nil

end Isa16
