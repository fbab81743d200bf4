import Isa16.Proofs.Program.Fragments
import Isa16.Proofs.Program.Spans

/-!
# Literals

* `Radix.Denotes`: the number that digits of a radix denote by their places, underscores left out.
* `Numeral`: how a number may be written. `readNumber_eq_self_iff`: such texts, and no others, are
  numbers to the scanner. `numeralValue?_of_numeral`: their values.
* **`parse_numeral`**: a text is one number exactly if it is a numeral, and it is read as its value
  or refused, by its radix and the size of the value.
* **`parse_toString_iff`**: the decimal spelling of an integer is read as the integer, but for the
  least one.
* **`scanFrom_stringLiteral`**: a string literal of any text is read back as the text, and the scan
  goes on right behind it.
-/

namespace Isa16

variable {r : Radix} {c : Char} {cs : List Char} {d n : Nat}

/-! ## Digits -/

/-- The character is the digit. Above nine, it is a letter of either case. -/
def IsDigitOf (d : Nat) (c : Char) : Prop :=
  c = d.digitChar ∨ c = d.digitChar.toUpper

instance (d : Nat) (c : Char) : Decidable (IsDigitOf d c) :=
  inferInstanceAs (Decidable (_ ∨ _))

/-- Digits of the radix, most significant first and with underscores among them, denote a number by
their places. -/
def Radix.Denotes (r : Radix) (cs : List Char) (n : Nat) : Prop :=
  ∃ ds : List Nat, List.Forall₂ IsDigitOf ds (cs.filter (· ≠ '_')) ∧ (∀ d ∈ ds, d < r.base) ∧
    Nat.ofDigits r.base ds.reverse = n

theorem Radix.base_le (r : Radix) : r.base ≤ 16 := by
  cases r <;> decide

theorem isHexDigit_of_isDigitOf (h : IsDigitOf d c) (hd : d < 16) :
    isHexDigit c = true ∧ hexDigitValue c = d := by
  rcases h with rfl | rfl
  · exact ⟨isHexDigit_digitChar hd, hexDigitValue_digitChar hd⟩
  · exact ⟨isHexDigit_toUpper hd, (hexDigitValue_toUpper hd).trans (hexDigitValue_digitChar hd)⟩

theorem toNat_of_isHexDigit (h : isHexDigit c = true) :
    (48 ≤ c.toNat ∧ c.toNat ≤ 57) ∨ (65 ≤ c.toNat ∧ c.toNat ≤ 70) ∨
      (97 ≤ c.toNat ∧ c.toNat ≤ 102) := by
  simp only [isHexDigit, Bool.or_eq_true, Bool.and_eq_true, decide_eq_true_eq, Char.le_def,
    UInt32.le_iff_toNat_le] at h
  rcases h with (hdigit | hlower) | hupper
  · exact Or.inl (toNat_of_isDigit hdigit)
  · exact Or.inr (Or.inr hlower)
  · exact Or.inr (Or.inl hupper)

theorem isDigitOf_hexDigitValue (h : isHexDigit c = true) : IsDigitOf (hexDigitValue c) c := by
  have hrange := toNat_of_isHexDigit h
  rw [← Char.ofNat_toNat c]
  generalize c.toNat = k at hrange
  rcases hrange with ⟨hle, hge⟩ | ⟨hle, hge⟩ | ⟨hle, hge⟩ <;> interval_cases k <;> decide

theorem Radix.isDigit_of_isDigitOf (h : IsDigitOf d c) (hd : d < r.base) :
    r.isDigit c = true ∧ hexDigitValue c = d := by
  obtain ⟨hhex, rfl⟩ := isHexDigit_of_isDigitOf h (hd.trans_le r.base_le)
  exact ⟨Bool.and_eq_true_iff.mpr ⟨hhex, decide_eq_true hd⟩, rfl⟩

theorem digitsValue_eq_ofDigits (b : Nat) (cs : List Char) :
    digitsValue b cs = Nat.ofDigits b (cs.map hexDigitValue).reverse := by
  rw [Nat.ofDigits_eq_foldr, List.foldr_reverse, List.foldl_map, digitsValue]
  refine List.foldl_ext _ _ _ fun n c _ => ?_
  exact Nat.add_comm _ _

theorem eq_map_of_isDigitOf {ds : List Nat} (h : List.Forall₂ IsDigitOf ds cs)
    (hds : ∀ d ∈ ds, d < r.base) :
    (∀ c ∈ cs, r.isDigit c = true) ∧ ds = cs.map hexDigitValue := by
  induction h with
  | nil => exact ⟨by simp, rfl⟩
  | @cons d c ds cs h _ ih =>
    obtain ⟨hd, hds⟩ := List.forall_mem_cons.mp hds
    obtain ⟨hdigit, hvalue⟩ := Radix.isDigit_of_isDigitOf h hd
    obtain ⟨hdigits, hvalues⟩ := ih hds
    exact ⟨List.forall_mem_cons.mpr ⟨hdigit, hdigits⟩, by rw [List.map_cons, hvalue, ← hvalues]⟩

theorem Radix.isDigit_of_isPart (h : r.isPart c = true) (hc : c ≠ '_') : r.isDigit c = true := by
  simpa [isPart, hc] using h

theorem isPart_iff_filter : (∀ c ∈ cs, r.isPart c = true) ↔
    ∀ c ∈ cs.filter (· ≠ '_'), r.isDigit c = true := by
  simp only [Radix.isPart, List.mem_filter, Bool.or_eq_true, decide_eq_true_eq, and_imp]
  exact forall₂_congr fun c _ => or_iff_not_imp_left

theorem Radix.denotes_iff : r.Denotes cs n ↔
    (∀ c ∈ cs, r.isPart c = true) ∧ digitsValue r.base (cs.filter (· ≠ '_')) = n := by
  rw [Denotes, isPart_iff_filter, digitsValue_eq_ofDigits]
  generalize cs.filter (· ≠ '_') = digits
  constructor
  · rintro ⟨ds, hds, hlt, rfl⟩
    obtain ⟨hdigits, rfl⟩ := eq_map_of_isDigitOf hds hlt
    exact ⟨hdigits, rfl⟩
  · rintro ⟨hdigits, rfl⟩
    have hhex (c : Char) (hc : c ∈ digits) := Bool.and_eq_true_iff.mp (hdigits c hc)
    refine ⟨digits.map hexDigitValue, ?_, ?_, rfl⟩
    · exact List.forall₂_map_left_iff.mpr (List.forall₂_same.mpr fun c hc =>
        isDigitOf_hexDigitValue (hhex c hc).1)
    · exact List.forall_mem_map.mpr fun c hc => of_decide_eq_true (hhex c hc).2

/-! ## Numerals -/

/-- The letters that mark a radix behind a zero. -/
def Radix.letters : Radix → List Char
  | binary => ['b', 'B']
  | octal => ['o', 'O']
  | decimal => []
  | hexadecimal => ['x', 'X']

/-- How a number may be written in a radix: decimal digits, or digits behind a mark. Underscores may
stand behind the first digit or the mark. -/
inductive Numeral : Radix → List Char → Nat → Prop
  | decimal {c : Char} {cs : List Char} {n : Nat} (hc : c ≠ '_')
    (h : Radix.decimal.Denotes (c :: cs) n) : Numeral .decimal (c :: cs) n
  | marked {r : Radix} {letter : Char} {body : List Char} {n : Nat} (hletter : letter ∈ r.letters)
    (hdigit : ∃ c ∈ body, c ≠ '_') (h : r.Denotes body n) : Numeral r ('0' :: letter :: body) n

theorem Radix.ofLetter?_eq_some {letter : Char} :
    Radix.ofLetter? letter = some r ↔ letter ∈ r.letters := by
  constructor
  · intro h
    unfold ofLetter? at h
    split at h <;> cases h <;> decide
  · intro h
    cases r <;> simp only [letters, List.mem_cons, List.not_mem_nil, or_false] at h
    all_goals rcases h with rfl | rfl <;> rfl

theorem ne_underscore_of_mem_letters {letter : Char} (h : letter ∈ r.letters) : letter ≠ '_' := by
  rintro rfl
  cases Radix.ofLetter?_eq_some.mpr h

theorem isDigit_of_isDigit_decimal (h : Radix.decimal.isDigit c = true) : c.isDigit = true := by
  obtain ⟨hhex, hvalue⟩ := Bool.and_eq_true_iff.mp h
  have hlt := of_decide_eq_true hvalue
  have hchar := isDigitOf_hexDigitValue hhex
  generalize hexDigitValue c = d at hlt hchar
  change d < 10 at hlt
  rcases hchar with rfl | rfl <;> interval_cases d <;> rfl

theorem Numeral.front (h : Numeral r cs n) :
    ∃ c tail, cs = c :: tail ∧ c.isDigit = true := by
  cases h with
  | @decimal c cs _ hc h =>
    obtain ⟨hparts, -⟩ := Radix.denotes_iff.mp h
    have hdigit := Radix.isDigit_of_isPart (hparts c List.mem_cons_self) hc
    exact ⟨c, cs, rfl, isDigit_of_isDigit_decimal hdigit⟩
  | marked => exact ⟨'0', _, rfl, rfl⟩

theorem splitMark_of_numeral (h : Numeral r cs n) : ∃ mark body,
    splitMark cs = (r, mark, body) ∧
      splitMark (cs.filter (· ≠ '_')) = (r, mark, body.filter (· ≠ '_')) ∧
      r.Denotes body n ∧ ∃ c ∈ body, c ≠ '_' := by
  cases h with
  | decimal hc h =>
    obtain ⟨hparts, -⟩ := Radix.denotes_iff.mp h
    exact ⟨[], _, splitMark_of_isPart hparts,
      splitMark_of_isPart fun c hc => hparts c (List.mem_of_mem_filter hc), h, _,
      List.mem_cons_self, hc⟩
  | @marked _ letter body _ hletter hdigit h =>
    have hradix := Radix.ofLetter?_eq_some.mpr hletter
    have hne := ne_underscore_of_mem_letters hletter
    refine ⟨['0', letter], body, ?_, ?_, h, hdigit⟩
    · simp [splitMark, hradix]
    · simp [splitMark, hradix, hne]

theorem splitMark_cases (cs : List Char) :
    (∃ r letter body, letter ∈ Radix.letters r ∧ cs = '0' :: letter :: body ∧
      splitMark cs = (r, ['0', letter], body)) ∨ splitMark cs = (.decimal, [], cs) := by
  unfold splitMark
  split
  next letter body =>
    split
    next r hletter =>
      exact Or.inl ⟨r, letter, body, Radix.ofLetter?_eq_some.mp hletter, rfl, rfl⟩
    · exact Or.inr rfl
  · exact Or.inr rfl

/-- **The scanner takes a numeral as a whole**, and takes no other text so. -/
theorem readNumber_eq_self_iff (hc : c.isDigit = true) :
    readNumber (c :: cs) = .ok (c :: cs, []) ↔ ∃ r n, Numeral r (c :: cs) n := by
  constructor
  · intro h
    rcases hmark : splitMark (c :: cs) with ⟨r, mark, body⟩
    rw [readNumber, hmark] at h
    dsimp only at h
    split_ifs at h with hany
    obtain ⟨-, hrest⟩ := Prod.mk.inj (Except.ok.inj h)
    have hparts := List.dropWhile_eq_nil_iff.mp hrest
    have hdenotes : r.Denotes body _ := Radix.denotes_iff.mpr ⟨hparts, rfl⟩
    rcases splitMark_cases (c :: cs) with ⟨r', letter, body', hletter, heq, hsplit⟩ | hsplit
    · rw [hmark] at hsplit
      cases hsplit
      rw [List.takeWhile_eq_self_iff.mpr hparts] at hany
      obtain ⟨d, hd, hdigit⟩ := List.any_eq_true.mp hany
      have hne : d ≠ '_' := by
        rintro rfl
        cases hdigit
      rw [heq]
      exact ⟨r, _, .marked hletter ⟨d, hd, hne⟩ hdenotes⟩
    · rw [hmark] at hsplit
      cases hsplit
      refine ⟨.decimal, _, .decimal ?_ hdenotes⟩
      rintro rfl
      cases hc
  · rintro ⟨r, n, h⟩
    obtain ⟨mark, body, hmark, -, hdenotes, d, hd, hne⟩ := splitMark_of_numeral h
    obtain ⟨hparts, -⟩ := Radix.denotes_iff.mp hdenotes
    have hany : body.any r.isDigit = true :=
      List.any_eq_true.mpr ⟨d, hd, Radix.isDigit_of_isPart (hparts d hd) hne⟩
    have happend := splitMark_append (c :: cs)
    rw [hmark] at happend
    unfold readNumber
    simp only [hmark, List.takeWhile_eq_self_iff.mpr hparts, List.dropWhile_eq_nil_iff.mpr hparts,
      hany]
    exact congrArg (fun span => Except.ok (span, [])) happend

/-- The value of a numeral: of a decimal one, the integer; of a marked one, the bits. -/
theorem numeralValue?_of_numeral (h : Numeral r cs n) : numeralValue? cs =
    if n < (if r = .decimal then 2 ^ 63 else 2 ^ 64) then some (Int64.ofNat n) else none := by
  obtain ⟨mark, body, -, hmark, hdenotes, c, hc, hne⟩ := splitMark_of_numeral h
  obtain ⟨hparts, hvalue⟩ := Radix.denotes_iff.mp hdenotes
  have hdigits : (body.filter (· ≠ '_')).all r.isDigit = true :=
    List.all_eq_true.mpr (isPart_iff_filter.mp hparts)
  have hfull : (body.filter (· ≠ '_')).isEmpty = false :=
    List.isEmpty_eq_false_iff_exists_mem.mpr ⟨c, List.mem_filter.mpr ⟨hc, decide_eq_true hne⟩⟩
  unfold numeralValue?
  simp only [hmark, hvalue, hdigits, hfull, Bool.not_false, Bool.true_and, decide_eq_true_eq]
  norm_num

/-! ## Texts of one literal -/

/-- What is no blank and no comment is scanned from the first character on. -/
theorem scanFrom_of_readPiece {p : Position} {piece : Piece} (hblank : isBlank c = false)
    (hslash : c ≠ '/') (hread : readPiece c cs = .ok piece) : scanFrom p (c :: cs) =
      (scanFrom (p.after piece.span) piece.rest).cons ⟨piece.lexeme, p⟩ := by
  have hgap := splitGap_false_of_front hblank fun h : c = '/' ∧ cs.head? = some '/' => hslash h.1
  have hrest : (splitGap false (c :: cs)).2 = c :: cs := by rw [hgap]
  rw [scanFrom_of_splitGap_cons hrest hread, hgap, Position.after_nil]

theorem scan_of_readNumber {text : String} (htext : text.toList = c :: cs)
    (hc : c.isDigit = true) (hread : readNumber (c :: cs) = .ok (c :: cs, [])) :
    scan text = ⟨[⟨.number text, .start⟩], .complete (.behind text.toList)⟩ := by
  have hslash : c ≠ '/' := by
    rintro rfl
    cases hc
  have hpiece : readPiece c cs = .ok ⟨.number text, c :: cs, []⟩ := by
    rw [readPiece_of_isDigit hc, hread, ← htext]
    simp [Except.map]
  have hscan := scanFrom_of_readPiece (p := .start) (isBlank_of_isDigit hc) hslash hpiece
  rw [scan, htext, hscan, scanFrom_of_splitGap_nil rfl, Position.start_eq, Position.after_behind]
  rfl

theorem readNumber_of_readPiece {piece : Piece} {text : String}
    (h : readPiece c cs = .ok piece) (hl : piece.lexeme = .number text) :
    c.isDigit = true ∧ readNumber (c :: cs) = .ok (text.toList, piece.rest) := by
  unfold readPiece at h
  split at h
  · cases h
    cases hl
  split at h
  · cases h
    cases hl
  split at h
  · obtain ⟨_, -, h⟩ := map_eq_ok.mp h
    cases h
    cases hl
  split at h
  next hc =>
    obtain ⟨_, hread, h⟩ := map_eq_ok.mp h
    cases h
    cases hl
    rw [String.toList_ofList]
    exact ⟨hc, hread⟩
  split at h
  · cases h
    cases hl
  · cases h

theorem readNumber_of_yields {text : String} (h : (scan text).Yields [.number text]) :
    ∃ c cs, text.toList = c :: cs ∧ c.isDigit = true ∧
      readNumber (c :: cs) = .ok (c :: cs, []) := by
  obtain ⟨o, hcuts⟩ := cuts_of_yields h
  cases hcuts with
  | @piece _ _ _ tail span rest c _ _ hcons hpiece =>
    obtain ⟨hc, hread⟩ := readNumber_of_readPiece hpiece rfl
    have happend := readNumber_append hread
    have hgap := splitGap_append false text.toList
    rw [hcons, ← happend] at hgap
    -- the number alone is as long as the text, so nothing stands in front of it or behind it
    have hlength := congrArg List.length hgap
    simp only [List.length_append] at hlength
    obtain rfl := List.eq_nil_of_length_eq_zero (l := rest) (by omega)
    rw [List.append_nil] at happend
    rw [happend] at hread
    exact ⟨c, tail, happend, hc, hread⟩

theorem scan_eq_number_iff {text : String} :
    scan text = ⟨[⟨.number text, .start⟩], .complete (.behind text.toList)⟩ ↔
      ∃ r n, Numeral r text.toList n := by
  constructor
  · intro h
    have hyields : (scan text).Yields [.number text] := by
      rw [h]
      exact ⟨rfl, _, rfl⟩
    obtain ⟨c, cs, htext, hc, hread⟩ := readNumber_of_yields hyields
    rw [htext]
    exact (readNumber_eq_self_iff hc).mp hread
  · rintro ⟨r, n, h⟩
    obtain ⟨c, cs, htext, hc⟩ := h.front
    rw [htext] at h
    exact scan_of_readNumber htext hc ((readNumber_eq_self_iff hc).mpr ⟨r, n, h⟩)

theorem parse_of_parses_unary {text : String} {l : Lexeme} {ls : List Lexeme} {e : Expr} {m : Nat}
    (hyields : (scan text).Yields (l :: ls)) (hl : l.Opens)
    (h : Parses (.unary e) m (l :: ls) []) (hm : m + 2 ≤ maxNesting) :
    parse text = .ok [.expr e] := by
  obtain ⟨-, hsemi, hif⟩ := hl.ne
  have hexpression := parses_expression_of_unary h (stops_none 0) (by simp)
  have hbody := Parses.expressionBody (by simpa using hif) hexpression (by simp)
  have hstatement := parses_statement (j := 0) rfl (by simp) (by simpa using hsemi)
    (.statement hbody)
  exact parse_eq_ok_iff_parses.mpr ⟨_, hyields, _, by omega, hstatement⟩

/-! ## Numbers out of range -/

/-- The place is in front of a number that is out of range. -/
structure Cursor.AtOutOfRange (a : Cursor) (digits : String) (p : Position) : Prop where
  front : a.front? = some (some (.number digits), p)
  value : numeralValue? digits.toList = none

namespace Reader

variable {a : Cursor} {e : Halt} {digits : String} {p : Position}

theorem halts_deepen_bind {β : Type} {f : Unit → Reader β} (hd : a.depth < maxNesting)
    (hf : Halts (f ()) a.deeper e) : Halts (deepen >>= f) a e :=
  halts_bind_of_gives (gives_deepen.mpr ⟨hd, rfl⟩) hf

/-- The fault at a number that is out of range. -/
def outOfRange (digits : String) (p : Position) : Halt :=
  .fault (.grammatical p (.numberTooLarge digits))

theorem halts_primary (h : a.AtOutOfRange digits p) (n : Nat) :
    Halts (primary (n + 1)) a (outOfRange digits p) := by
  rw [primary]
  refine halts_bind_of_gives (gives_peek.mpr ⟨h.front, rfl⟩) ?_
  dsimp only
  rw [h.value]
  rfl

theorem halts_unary (h : a.AtOutOfRange digits p) (n : Nat) :
    Halts (unary (n + 3)) a (outOfRange digits p) := by
  have hat : a.At (some (.number digits)) := ⟨p, h.front⟩
  rw [unary, unaryOperator?_eq]
  refine halts_bind_of_gives (gives_operator?_none hat rfl) ?_
  dsimp only
  rw [application]
  exact halts_bind (halts_primary h n)

theorem halts_binary {level : Nat} (h : a.AtOutOfRange digits p) (n k : Nat)
    (hk : level + k = BinaryOp.levels) :
    Halts (binary (n + 4 + k) level) a (outOfRange digits p) := by
  induction k generalizing level with
  | zero =>
    rw [Nat.add_zero, binary, if_neg (by omega)]
    exact halts_unary h n
  | succ k ih =>
    rw [← Nat.add_assoc, binary, if_pos (by omega)]
    exact halts_bind (ih (by omega))

theorem halts_statements (h : a.AtOutOfRange digits p) (hd : a.depth + 1 < maxNesting) (n : Nat) :
    Halts (statements (n + 18) none) a (outOfRange digits p) := by
  have hat : a.At (some (.number digits)) := ⟨p, h.front⟩
  have hif : a.deeper.NotAtWord "if" := hat.notAt (by simp)
  have hdeep : a.deeper.deeper.AtOutOfRange digits p := ⟨h.front, h.value⟩
  rw [statements]
  refine halts_bind_of_gives (gives_atClosing_false (hat.notAt (by simp))) ?_
  refine halts_bind_of_gives (gives_accept_false (hat.notAt (by simp))) (halts_bind ?_)
  rw [statement]
  refine halts_deepen_bind (by omega) (halts_bind ?_)
  rw [statementBody]
  refine halts_bind_of_gives (gives_atWord_false hif) (halts_bind ?_)
  rw [expression]
  exact halts_deepen_bind hd (halts_bind (halts_binary hdeep n 10 rfl))

end Reader

theorem parse_of_outOfRange {text digits : String} {p : Position}
    (h : (scan text).tokens.head? = some ⟨.number digits, p⟩)
    (hvalue : numeralValue? digits.toList = none) :
    parse text = .error (.grammatical p (.numberTooLarge digits)) := by
  obtain ⟨ts, htokens⟩ := List.head?_eq_some_iff.mp h
  have hfront : (scan text).cursor.AtOutOfRange digits p := by
    refine ⟨?_, hvalue⟩
    unfold Cursor.front? Scan.cursor
    simp only [htokens]
  have hlength : readingAllowance (scan text).tokens.length =
      (20 * ts.length + 22) + 18 := by
    rw [htokens, readingAllowance, List.length_cons]
    omega
  have hhalts := Reader.halts_statements hfront (show 0 + 1 < maxNesting by decide)
    (20 * ts.length + 22)
  unfold parse
  dsimp only
  rw [hlength, show (Reader.statements _ none).run _ = _ from hhalts]
  rfl

/-! ## Numbers -/

/-- **Numbers are read by value**: a text is one number, from its first character to its last,
exactly if it is a numeral; and it is read as the integer that it denotes, if it is decimal, or as
the integer with the bits that it spells, if it is marked, unless there is no such integer. -/
theorem parse_numeral (text : String) :
    (scan text = ⟨[⟨.number text, .start⟩], .complete (.behind text.toList)⟩ ↔
      ∃ r n, Numeral r text.toList n) ∧
    ∀ r n, Numeral r text.toList n →
      (r = .decimal ∧ n < 2 ^ 63 ∧
        ∃ v : Int64, v.toInt = n ∧ parse text = .ok [.expr (.int v)]) ∨
      (r ≠ .decimal ∧ n < 2 ^ 64 ∧
        ∃ v : Int64, v.toUInt64.toNat = n ∧ parse text = .ok [.expr (.int v)]) ∨
      ((if r = .decimal then 2 ^ 63 else 2 ^ 64) ≤ n ∧
        parse text = .error (.grammatical .start (.numberTooLarge text))) := by
  refine ⟨scan_eq_number_iff, fun r n h => ?_⟩
  have hscan := scan_eq_number_iff.mpr ⟨r, n, h⟩
  have hvalue := numeralValue?_of_numeral h
  rcases Nat.lt_or_ge n (if r = .decimal then 2 ^ 63 else 2 ^ 64) with hlt | hge
  · rw [if_pos hlt] at hvalue
    have hyields : (scan text).Yields [.number text] := by
      rw [hscan]
      exact ⟨rfl, _, rfl⟩
    have hunary := parses_unary_of_primary (v := []) (.number hvalue) rfl (stops_none 0)
    have hparse := parse_of_parses_unary hyields trivial hunary (by decide)
    by_cases hr : r = .decimal
    · rw [if_pos hr] at hlt
      exact Or.inl ⟨hr, hlt, _, Int64.toInt_ofNat_of_lt hlt, hparse⟩
    · rw [if_neg hr] at hlt
      have hbits : (Int64.ofNat n).toUInt64.toNat = n :=
        (BitVec.toNat_ofNat n 64).trans (Nat.mod_eq_of_lt hlt)
      exact Or.inr (Or.inl ⟨hr, hlt, _, hbits, hparse⟩)
  · rw [if_neg (Nat.not_lt.mpr hge)] at hvalue
    refine Or.inr (Or.inr ⟨hge, parse_of_outOfRange ?_ hvalue⟩)
    rw [hscan]
    rfl

/-- All but the last of the bits, with both cases of letters and an underscore behind the mark. -/
theorem parse_numeral_full : Numeral .hexadecimal "0X_ffff_FFFF_ffff_FFFe".toList (2 ^ 64 - 2) ∧
    parse "0X_ffff_FFFF_ffff_FFFe" = .ok [.expr (.int (-2))] := by
  have htext : "0X_ffff_FFFF_ffff_FFFe".toList = ['0', 'X', '_', 'f', 'f', 'f', 'f', '_',
      'F', 'F', 'F', 'F', '_', 'f', 'f', 'f', 'f', '_', 'F', 'F', 'F', 'e'] := by simp
  have hnumeral : Numeral .hexadecimal "0X_ffff_FFFF_ffff_FFFe".toList (2 ^ 64 - 2) := by
    rw [htext]
    refine .marked (by decide) ⟨'e', by decide, by decide⟩
      ⟨[15, 15, 15, 15, 15, 15, 15, 15, 15, 15, 15, 15, 15, 15, 15, 14], ?_, by decide,
        by norm_num [Nat.ofDigits, Radix.base]⟩
    simp only [List.filter]
    decide
  rcases (parse_numeral "0X_ffff_FFFF_ffff_FFFe").2 _ _ hnumeral with
    ⟨hr, -, -⟩ | ⟨-, -, v, hv, hparse⟩ | ⟨hle, -⟩
  · cases hr
  · have hminus : v = -2 := Int64.toBitVec_inj.mp (BitVec.eq_of_toNat_eq hv)
    rw [hminus] at hparse
    exact ⟨hnumeral, hparse⟩
  · exact absurd hle (by decide)

theorem parse_toString_least : parse (toString Int64.minValue.toInt) =
    .error (.grammatical ⟨1, 2⟩ (.numberTooLarge "9223372036854775808")) := by
  cbv

/-- **The decimal spelling of an integer is read as the integer**, but for the least one. -/
theorem parse_toString_iff (n : Int64) :
    parse (toString n.toInt) = .ok [.expr (.int n)] ↔ n ≠ Int64.minValue := by
  constructor
  · rintro h rfl
    rw [parse_toString_least] at h
    cases h
  · intro hmin
    have hbounds := And.intro n.le_toInt n.toInt_lt
    rcases Int.lt_or_le n.toInt 0 with hneg | hnonneg
    · have hne : n.toInt ≠ Int64.minValue.toInt := fun h => hmin (Int64.toInt_inj.mp h)
      rw [Int64.toInt_minValue] at hne
      have hunary := parses_negated (k := n.toInt.natAbs) (v := []) (by omega) (stops_none 0)
      rw [eq_neg_ofNat_natAbs hneg] at hunary
      have hyields := yields_of_cuts (cuts_dash (cuts_number n.toInt.natAbs)) rfl .start
      rw [toString_of_neg hneg]
      refine parse_of_parses_unary (l := .symbol .dash) ?_ (Or.inr rfl) hunary (by decide)
      rw [scan, String.toList_append]
      exact hyields
    · have hunary := parses_unary_number (k := n.toInt.natAbs) (v := []) (by omega) (stops_none 0)
      rw [eq_ofNat_natAbs hnonneg] at hunary
      have hyields := yields_of_cuts (cuts_number n.toInt.natAbs) rfl .start
      rw [toString_of_nonneg hnonneg]
      exact parse_of_parses_unary hyields trivial hunary (by decide)

/-- The least integer is not read from its decimal spelling. -/
theorem parse_toString_least_ne :
    parse (toString Int64.minValue.toInt) ≠ .ok [.expr (.int Int64.minValue)] := by
  rw [parse_toString_least]
  intro h
  cases h

/-! ## String literals -/

theorem newline_not_mem_quotedChar (c : Char) : '\n' ∉ Snippet.quotedChar c := by
  unfold Snippet.quotedChar
  split
  next letter hletter =>
    unfold escapeLetter? at hletter
    split at hletter <;> cases hletter <;> decide
  next hnone =>
    split
    · intro h
      have hdigit : '\n' ∈ Nat.toDigits 16 c.toNat := by simpa [codePointEscape] using h
      cases isHexDigit_of_mem_toDigits (by decide) (by decide) hdigit
    · obtain ⟨-, hline, -⟩ := ne_of_escapeLetter? hnone
      simpa using hline.symm

theorem newline_not_mem_stringLiteral (s : String) :
    '\n' ∉ (Snippet.stringLiteral s).toList := by
  rw [Snippet.stringLiteral, quotedWith, String.toList_ofList]
  simp only [List.cons_append, List.mem_cons, List.mem_append, List.mem_flatMap, List.not_mem_nil,
    or_false, not_or, not_exists, not_and]
  exact ⟨by decide, fun c _ => newline_not_mem_quotedChar c, by decide⟩

theorem Position.after_of_newline_not_mem (h : '\n' ∉ cs) (p : Position) :
    p.after cs = ⟨p.line, p.column + cs.length⟩ := by
  induction cs generalizing p with
  | nil => rfl
  | cons c cs ih =>
    rw [List.mem_cons, not_or] at h
    have hnext : p.next c = ⟨p.line, p.column + 1⟩ := if_neg (Ne.symm h.1)
    calc p.after (c :: cs) = (p.next c).after cs := rfl
      _ = ⟨p.line, p.column + 1 + cs.length⟩ := by rw [hnext, ih h.2]
      _ = ⟨p.line, p.column + (c :: cs).length⟩ := by rw [List.length_cons]; congr 1; omega

/-- **A string literal of any text is read back as the text**, wherever it stands and whatever
follows, and the scan goes on right behind it. -/
theorem scanFrom_stringLiteral (p : Position) (s rest : String) :
    scanFrom p (Snippet.stringLiteral s ++ rest).toList =
      (scanFrom ⟨p.line, p.column + (Snippet.stringLiteral s).length⟩ rest.toList).cons
        ⟨.text s, p⟩ := by
  have htext : (Snippet.stringLiteral s ++ rest).toList =
      '"' :: (s.toList.flatMap Snippet.quotedChar ++ '"' :: rest.toList) := by
    simp [Snippet.stringLiteral, quotedWith]
  have hspan := Position.after_of_newline_not_mem (newline_not_mem_stringLiteral s) p
  rw [htext, scanFrom_of_readPiece (by decide) (by decide) (readPiece_quoted s rest.toList)]
  dsimp only
  rw [hspan, String.length_toList]

end Isa16
