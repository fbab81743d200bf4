import Isa16.Program.Numeral
import Isa16.Program.SyntaxError
import Isa16.Text.Blank

/-!
# Cutting a text into tokens

* `splitGap`: the blanks and comments in front of a token.
* `readPiece`: one lexeme off the front of a text, with the characters it takes.
* `scan`: the tokens of a text, up to its end or to the first fault.
* `splitGap_append`, `readPiece_append`: nothing is lost; what was read and the rest make up the
  text.
-/

namespace Isa16

/-! ## Gaps -/

/-- Splits off blanks and comments. A comment goes from `//` through the end of its line. -/
def splitGap (inComment : Bool) : List Char → List Char × List Char
  | [] => ([], [])
  | c :: cs =>
    if inComment then
      let gap := splitGap (c ≠ '\n') cs
      (c :: gap.1, gap.2)
    else if c = '/' ∧ cs.head? = some '/' then
      let gap := splitGap true cs
      (c :: gap.1, gap.2)
    else if isBlank c then
      let gap := splitGap false cs
      (c :: gap.1, gap.2)
    else ([], c :: cs)

theorem splitGap_append (b : Bool) (cs : List Char) :
    (splitGap b cs).1 ++ (splitGap b cs).2 = cs := by
  induction cs generalizing b with
  | nil => rfl
  | cons c cs ih =>
    unfold splitGap
    split
    · simp [ih]
    split
    · simp [ih]
    split <;> simp [ih]

theorem length_splitGap (b : Bool) (cs : List Char) : (splitGap b cs).2.length ≤ cs.length := by
  have h := congrArg List.length (splitGap_append b cs)
  rw [List.length_append] at h
  omega

/-! ## Names -/

/-- An ASCII letter, an underscore or a dollar sign. -/
def isNameStart (c : Char) : Bool :=
  c.isAlpha || c = '_' || c = '$'

/-- A character of a name behind its first. -/
def isNamePart (c : Char) : Bool :=
  isNameStart c || c.isDigit

/-! ## Numbers -/

/-- A numeral off the front of a text. It has to hold a digit, and no name may touch it. -/
def readNumber (cs : List Char) : Except LexFault (List Char × List Char) :=
  let (radix, mark, body) := splitMark cs
  let digits := body.takeWhile radix.isPart
  let rest := body.dropWhile radix.isPart
  if digits.any radix.isDigit then
    if rest.head?.any isNamePart then .error .nameAfterNumber else .ok (mark ++ digits, rest)
  else .error .missingDigits

theorem readNumber_append {cs span rest : List Char} (h : readNumber cs = .ok (span, rest)) :
    span ++ rest = cs := by
  unfold readNumber at h
  dsimp only at h
  split at h
  · split at h
    · cases h
    · cases h
      rw [List.append_assoc, List.takeWhile_append_dropWhile, splitMark_append]
  · cases h

/-! ## String literals -/

theorem map_eq_ok {α β ε : Type} {x : Except ε α} {k : α → β} {b : β} :
    x.map k = .ok b ↔ ∃ a, x = .ok a ∧ k a = b := by
  cases x <;> simp [Except.map]

/-- The character with a code point. -/
def charOfCodePoint? (n : Nat) : Option Char :=
  if n.isValidChar then some (Char.ofNat n) else none

/-- The number between braces behind `\u`: the character, what was read, and the rest. -/
def readCodePoint : List Char → Except LexFault (Char × List Char × List Char)
  | '{' :: cs =>
    let digits := cs.takeWhile isHexDigit
    match cs.dropWhile isHexDigit with
    | '}' :: rest =>
      if digits = [] then .error .malformedEscape
      else
        match charOfCodePoint? (digitsValue 16 digits) with
        | some c => .ok (c, '{' :: digits ++ ['}'], rest)
        | none => .error (.invalidCodePoint (String.ofList digits))
    | _ => .error .malformedEscape
  | _ => .error .unbracedEscape

theorem readCodePoint_append {cs span rest : List Char} {c : Char}
    (h : readCodePoint cs = .ok (c, span, rest)) : span ++ rest = cs := by
  unfold readCodePoint at h
  split at h
  next ds =>
    dsimp only at h
    split at h
    next tail htail =>
      split at h
      · cases h
      split at h
      · cases h
        have hd : ds.takeWhile isHexDigit ++ ds.dropWhile isHexDigit = ds :=
          List.takeWhile_append_dropWhile
        rw [htail] at hd
        simp [hd]
      · cases h
    · cases h
  · cases h

/-- The character that a letter behind a backslash stands for; most stand for themselves. -/
def escapedChar : Char → Char
  | 'n' => '\n'
  | 'r' => '\r'
  | 't' => '\t'
  | '0' => '\x00'
  | c => c

/-- An escape behind its backslash: the character, what was read, and the rest. -/
def readEscape : List Char → Except LexFault (Char × List Char × List Char)
  | [] => .error .unterminatedEscape
  | 'u' :: cs => (readCodePoint cs).map fun (c, span, rest) => (c, 'u' :: span, rest)
  | c :: cs => .ok (escapedChar c, [c], cs)

theorem readEscape_append {cs span rest : List Char} {c : Char}
    (h : readEscape cs = .ok (c, span, rest)) : span ++ rest = cs := by
  unfold readEscape at h
  split at h
  · cases h
  · next ds =>
    obtain ⟨⟨d, span', rest'⟩, hp, h⟩ := map_eq_ok.mp h
    cases h
    simp [readCodePoint_append hp]
  · cases h
    rfl

theorem length_of_readEscape {cs span rest : List Char} {c : Char}
    (h : readEscape cs = .ok (c, span, rest)) : rest.length ≤ cs.length := by
  have h := congrArg List.length (readEscape_append h)
  rw [List.length_append] at h
  omega

/-- A string literal behind its opening quote, through the closing one: the contents, what was
read, and the rest. -/
def readText (quote : Char) : List Char → Except LexFault (List Char × List Char × List Char)
  | [] => .error .unterminatedText
  | c :: cs =>
    if c = '\\' then
      match _ : readEscape cs with
      | .error fault => .error fault
      | .ok (d, span, rest) =>
        (readText quote rest).map fun (contents, more, rest) =>
          (d :: contents, c :: span ++ more, rest)
    else if c = '\n' then .error .unterminatedText
    else if c = quote then .ok ([], [c], cs)
    else
      (readText quote cs).map fun (contents, more, rest) => (c :: contents, c :: more, rest)
termination_by cs => cs.length
decreasing_by
  · exact Nat.lt_succ_of_le (length_of_readEscape ‹_›)
  · exact Nat.lt_succ_self _

theorem readText_append {quote : Char} {cs contents span rest : List Char}
    (h : readText quote cs = .ok (contents, span, rest)) : span ++ rest = cs := by
  fun_induction readText quote cs generalizing contents span rest with
  | case1 => cases h
  | case2 => cases h
  | case3 cs d span' rest' he ih =>
    obtain ⟨_, hp, h⟩ := map_eq_ok.mp h
    cases h
    simp [ih hp, readEscape_append he]
  | case4 => cases h
  | case5 => cases h; rfl
  | case6 c cs _ _ _ ih =>
    obtain ⟨_, hp, h⟩ := map_eq_ok.mp h
    cases h
    simp [ih hp]

/-! ## Lexemes -/

/-- A lexeme, the characters it was written with, and the text behind it. -/
structure Piece where
  lexeme : Lexeme
  span : List Char
  rest : List Char

/-- The lexeme at the front of the text `c :: cs`. A symbol of two characters goes before the
symbols of its parts. -/
def readPiece (c : Char) (cs : List Char) : Except LexFault Piece :=
  match cs.head?.bind (Symbol.ofPair? c) with
  | some s => .ok ⟨.symbol s, c :: cs.take 1, cs.drop 1⟩
  | none =>
    match Symbol.ofChar? c with
    | some s => .ok ⟨.symbol s, [c], cs⟩
    | none =>
      if c = '"' ∨ c = '\'' then
        (readText c cs).map fun (contents, span, rest) =>
          ⟨.text (String.ofList contents), c :: span, rest⟩
      else if c.isDigit then
        (readNumber (c :: cs)).map fun (span, rest) => ⟨.number (String.ofList span), span, rest⟩
      else if isNameStart c then
        let span := c :: cs.takeWhile isNamePart
        .ok ⟨.identifier (String.ofList span), span, cs.dropWhile isNamePart⟩
      else .error (.unexpectedCharacter c)

theorem readPiece_append {c : Char} {cs : List Char} {p : Piece} (h : readPiece c cs = .ok p) :
    p.span ++ p.rest = c :: cs := by
  unfold readPiece at h
  split at h
  · cases h
    rw [List.cons_append, List.take_append_drop]
  split at h
  · cases h
    rfl
  split at h
  · obtain ⟨_, ht, h⟩ := map_eq_ok.mp h
    cases h
    simp [readText_append ht]
  split at h
  · obtain ⟨_, hn, h⟩ := map_eq_ok.mp h
    cases h
    exact readNumber_append hn
  split at h
  · cases h
    simp
  · cases h

theorem readNumber_span_ne_nil {cs span rest : List Char}
    (h : readNumber cs = .ok (span, rest)) : span ≠ [] := by
  unfold readNumber at h
  dsimp only at h
  split at h
  next hd =>
    split at h
    · cases h
    · cases h
      intro he
      rw [List.append_eq_nil_iff] at he
      rw [he.2] at hd
      cases hd
  · cases h

theorem readPiece_span_ne_nil {c : Char} {cs : List Char} {p : Piece}
    (h : readPiece c cs = .ok p) : p.span ≠ [] := by
  unfold readPiece at h
  split at h
  · cases h
    simp
  split at h
  · cases h
    simp
  split at h
  · obtain ⟨_, -, h⟩ := map_eq_ok.mp h
    cases h
    simp
  split at h
  · obtain ⟨_, hn, h⟩ := map_eq_ok.mp h
    cases h
    exact readNumber_span_ne_nil hn
  split at h
  · cases h
    simp
  · cases h

theorem length_of_readPiece {c : Char} {cs : List Char} {p : Piece} (h : readPiece c cs = .ok p) :
    p.rest.length < (c :: cs).length := by
  have hl := congrArg List.length (readPiece_append h)
  have hs := List.length_pos_iff.mpr (readPiece_span_ne_nil h)
  rw [List.length_append] at hl
  omega

/-! ## Texts -/

/-- Where the tokens stop: at the end of the text, or at a fault. -/
inductive Ending
  | complete (position : Position)
  | fault (position : Position) (fault : LexFault)
  deriving DecidableEq

/-- The tokens of a text and where they stop. -/
structure Scan where
  tokens : List Token
  ending : Ending
  deriving DecidableEq

/-- Puts a token in front. -/
def Scan.cons (t : Token) (s : Scan) : Scan :=
  ⟨t :: s.tokens, s.ending⟩

/-- The tokens of a text whose first character stands at `p`. -/
def scanFrom (p : Position) (cs : List Char) : Scan :=
  let start := p.after (splitGap false cs).1
  match _ : (splitGap false cs).2 with
  | [] => ⟨[], .complete start⟩
  | c :: tail =>
    match _ : readPiece c tail with
    | .error fault => ⟨[], .fault start fault⟩
    | .ok piece => Scan.cons ⟨piece.lexeme, start⟩ (scanFrom (start.after piece.span) piece.rest)
termination_by cs.length
decreasing_by
  have hp := length_of_readPiece ‹_›
  have hg := length_splitGap false cs
  rw [‹(splitGap false cs).2 = _›] at hg
  omega

/-- The tokens of a text. -/
def scan (source : String) : Scan :=
  scanFrom .start source.toList

end Isa16
