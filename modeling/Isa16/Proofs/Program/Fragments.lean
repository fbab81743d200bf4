import Isa16.Proofs.Program.Grammar
import Isa16.Proofs.Program.Spelling

/-!
# Texts made by the writers of snippets

* `Fragment`: an expression put together by the writers of `Snippet`, with its text, the tree that
  it denotes, its lexemes and the helpers that it applies.
* `Fragment.cuts`: the text is cut into the lexemes.
* `Fragment.links`, `Fragment.levels`: the calls and properties at the end of a fragment, which hold
  their levels up to its end, and the levels held before that.
* `Fragment.parses_application`: the lexemes are read as the tree, whatever calls and properties
  follow.
* **`Fragment.parse_text`**: the text of a fragment, and an assignment of two of them, is read as
  what it denotes or is nested too deeply, which no more than thirty helpers never are.
-/

namespace Isa16

/-! ## Fragments -/

/-- An expression put together by the writers of `Snippet`. -/
inductive Fragment
  | literal (l : Literal)
  /-- One of the two roots or a local. -/
  | root (name : String) (hname : isIdentifier name = true) (hkeyword : isKeyword name = false)
  | path (base : Fragment) (properties : List String)
  | element (base index : Fragment)
  /-- A call of a library function. -/
  | call (name : String) (hname : isIdentifier name = true) (args : List Fragment)
  /-- A construction by a library entry. -/
  | construct (name : String) (hname : isIdentifier name = true) (args : List Fragment)

namespace Fragment

mutual

/-- The text that the writers make. -/
def text : Fragment → String
  | literal l => Snippet.literal l
  | root name _ _ => name
  | path base properties => Snippet.path base.text properties
  | element base index => Snippet.element base.text index.text
  | call name _ args => Snippet.application (Snippet.entry name) (texts args)
  | construct name _ args => Snippet.construction (Snippet.entry name) (texts args)

/-- The texts of arguments. -/
def texts : List Fragment → List String
  | [] => []
  | t :: ts => t.text :: texts ts

end

end Fragment

/-- The number that a property's name is in canonical decimal digits, if it is an integer. -/
def canonicalIndex? (name : String) : Option Nat :=
  let n := Nat.ofDigitChars 10 name.toList 0
  if name = toString n ∧ n < 2 ^ 63 then some n else none

theorem canonicalIndex?_eq_some {name : String} {n : Nat} :
    canonicalIndex? name = some n ↔ name = toString n ∧ n < 2 ^ 63 := by
  unfold canonicalIndex?
  simp only [Option.ite_none_right_eq_some, Option.some.injEq]
  constructor
  · rintro ⟨h, rfl⟩
    exact h
  · rintro ⟨rfl, hn⟩
    have hvalue : Nat.ofDigitChars 10 (toString n).toList 0 = n := by
      rw [Nat.toString_eq_ofList_toDigits, String.toList_ofList, Nat.ofDigitChars_ten_toDigits]
    rw [hvalue]
    exact ⟨⟨rfl, hn⟩, rfl⟩

/-- A property of an object: an element if its name is an index, a member if it is the name of a
value, and an element by that text otherwise. -/
def propertyTree (object : Expr) (name : String) : Expr :=
  match canonicalIndex? name with
  | some n => .index object (.int (Int64.ofNat n))
  | none =>
    if isIdentifier name && !isKeyword name then .member object name
    else .index object (.text name)

/-- What a literal denotes. The least integer is written as a difference. -/
def Literal.tree : Literal → Expr
  | .int n =>
    if n = Int64.minValue then .binary .sub (.int (-9223372036854775807)) (.int 1) else .int n
  | .bool b => .bool b
  | .text s => .text s

namespace Fragment

mutual

/-- The expression that a fragment denotes. -/
def tree : Fragment → Expr
  | literal l => l.tree
  | root name _ _ => .ident name
  | path base properties => properties.foldl propertyTree base.tree
  | element base index => .index base.tree index.tree
  | call name _ args => .call (.ident (Snippet.entry name)) (trees args)
  | construct name _ args => .construct (.ident (Snippet.entry name)) (trees args)

/-- What arguments denote. -/
def trees : List Fragment → List Expr
  | [] => []
  | t :: ts => t.tree :: trees ts

end

mutual

/-- The helpers applied and the properties named, literals and library names apart. -/
def helpers : Fragment → Nat
  | literal _ | root .. => 0
  | path base properties => base.helpers + properties.length + 1
  | element base index => base.helpers + index.helpers + 1
  | call _ _ args | construct _ _ args => helpersOfAll args + 1

/-- The helpers of all arguments. -/
def helpersOfAll : List Fragment → Nat
  | [] => 0
  | t :: ts => t.helpers + helpersOfAll ts

end

end Fragment

/-! ## Lexemes -/

/-- A property behind an object. -/
def propertyLexemes (name : String) : List Lexeme :=
  if Snippet.isIndexText name then [.symbol .leftBracket, .number name, .symbol .rightBracket]
  else if isIdentifier name && !isKeyword name then [.symbol .dot, .identifier name]
  else [.symbol .leftBracket, .text name, .symbol .rightBracket]

/-- The lexemes of a literal. -/
def Literal.lexemes : Literal → List Lexeme
  | .int n =>
    if n = Int64.minValue then
      [.symbol .leftParen, .symbol .dash, .number "9223372036854775807", .symbol .dash,
        .number "1", .symbol .rightParen]
    else if n < 0 then
      [.symbol .leftParen, .symbol .dash, .number (toString n.toInt.natAbs), .symbol .rightParen]
    else [.number (toString n.toInt.natAbs)]
  | .bool b => [.identifier (toString b)]
  | .text s => [.text s]

namespace Fragment

mutual

/-- The lexemes of a fragment. -/
def lexemes : Fragment → List Lexeme
  | literal l => l.lexemes
  | root name _ _ => [.identifier name]
  | path base properties => base.lexemes ++ properties.flatMap propertyLexemes
  | element base index =>
    base.lexemes ++ .symbol .leftBracket :: (index.lexemes ++ [.symbol .rightBracket])
  | call name _ args => .identifier (Snippet.entry name) :: .symbol .leftParen ::
    ([.symbol .comma].intercalate (lexemesOfAll args) ++ [.symbol .rightParen])
  | construct name _ args =>
    .identifier "new" :: .identifier (Snippet.entry name) :: .symbol .leftParen ::
      ([.symbol .comma].intercalate (lexemesOfAll args) ++ [.symbol .rightParen])

/-- The lexemes of each argument. -/
def lexemesOfAll : List Fragment → List (List Lexeme)
  | [] => []
  | t :: ts => t.lexemes :: lexemesOfAll ts

end

end Fragment

theorem cuts_leftBracket {cs : List Char} {ls : List Lexeme} {o : Bool} (h : Cuts false cs ls o) :
    Cuts false ('[' :: cs) (.symbol .leftBracket :: ls) o :=
  cuts_symbol rfl (fun _ => rfl) (by decide) h

theorem cuts_rightBracket : Cuts false [']'] [.symbol .rightBracket] false :=
  cuts_symbol rfl (fun _ => rfl) (by decide) cuts_nil

theorem cuts_bracketed {cs : List Char} {ls : List Lexeme} (h : Cuts false cs ls false) :
    Cuts false ('[' :: (cs ++ [']'])) (.symbol .leftBracket :: (ls ++ [.symbol .rightBracket]))
      false :=
  cuts_leftBracket (h.append (border_of_mem (by decide)) cuts_rightBracket)

theorem toList_bracketed (s : String) : s!"[{s}]".toList = '[' :: (s.toList ++ [']']) := by
  show ("[" ++ s ++ "]").toList = _
  simp

theorem cuts_property (name : String) : ∃ d ds, (Snippet.property name).toList = d :: ds ∧
    Border d ∧ Cuts false (d :: ds) (propertyLexemes name) false := by
  unfold Snippet.property propertyLexemes
  split
  next hindex =>
    obtain ⟨n, rfl, -⟩ := isIndexText_iff.mp hindex
    exact ⟨_, _, toList_bracketed _, border_of_mem (by decide), cuts_bracketed (cuts_number n)⟩
  · split
    next hname =>
      have hplain := isPlain_of_isIdentifier (Bool.and_eq_true_iff.mp hname).1
      have htext : s!".{name}".toList = '.' :: name.toList := by
        show ("." ++ name).toList = _
        simp
      exact ⟨_, _, htext, border_of_mem (by decide),
        cuts_symbol rfl (fun _ => rfl) (by decide) (cuts_of_isPlain hplain)⟩
    · exact ⟨_, _, toList_bracketed _, border_of_mem (by decide), cuts_bracketed (cuts_text name)⟩

theorem cuts_path {base : String} {ls : List Lexeme} (h : Cuts false base.toList ls false)
    (properties : List String) : Cuts false (Snippet.path base properties).toList
      (ls ++ properties.flatMap propertyLexemes) false := by
  induction properties generalizing base ls with
  | nil => rwa [List.flatMap_nil, List.append_nil]
  | cons name properties ih =>
    obtain ⟨d, ds, hds, hborder, hcuts⟩ := cuts_property name
    have hnext : Cuts false (base ++ Snippet.property name).toList (ls ++ propertyLexemes name)
        false := by
      rw [String.toList_append, hds]
      exact h.append hborder hcuts
    rw [List.flatMap_cons, ← List.append_assoc]
    exact ih hnext

theorem toString_of_neg {n : Int} (h : n < 0) : toString n = "-" ++ toString n.natAbs := by
  cases n with
  | ofNat k => exact absurd h (by simp)
  | negSucc k => rfl

theorem toString_of_nonneg {n : Int} (h : 0 ≤ n) : toString n = toString n.natAbs := by
  cases n with
  | ofNat k => rfl
  | negSucc k => exact absurd h (by simp)

theorem cuts_dash {cs : List Char} {ls : List Lexeme} {o : Bool} (h : Cuts false cs ls o) :
    Cuts false ('-' :: cs) (.symbol .dash :: ls) o :=
  cuts_symbol rfl (fun _ => rfl) (by decide) h

theorem cuts_literal (l : Literal) : Cuts false (Snippet.literal l).toList l.lexemes false := by
  cases l with
  | int n =>
    unfold Snippet.literal Literal.lexemes
    dsimp only
    split_ifs with hmin hneg
    · have hone : Cuts false ("1".toList ++ [')']) [.number "1", .symbol .rightParen] false :=
        (cuts_number 1).append (border_of_mem (by decide)) cuts_rightParen
      have htext := cuts_leftParen (cuts_dash ((cuts_number 9223372036854775807).append
        (border_of_mem (by decide)) (cuts_space (cuts_dash (cuts_space hone)))))
      exact htext
    · have hint : n.toInt < 0 := Int64.lt_iff_toInt_lt.mp hneg
      have htext : s!"({n.toInt})".toList =
          '(' :: '-' :: ((toString n.toInt.natAbs).toList ++ [')']) := by
        show ("(" ++ toString n.toInt ++ ")").toList = _
        rw [toString_of_neg hint]
        simp
      rw [htext]
      exact cuts_leftParen (cuts_dash ((cuts_number _).append (border_of_mem (by decide))
        cuts_rightParen))
    · have hint : 0 ≤ n.toInt := Int.not_lt.mp fun h => hneg (Int64.lt_iff_toInt_lt.mpr h)
      rw [toString_of_nonneg hint]
      exact cuts_number _
  | bool b => cases b <;> exact cuts_of_isPlain (isPlain_of_isIdentifier (by decide))
  | text s => exact cuts_text s

/-- Arguments up to the closing parenthesis. -/
theorem cuts_intercalate {css : List (List Char)} {lss : List (List Lexeme)}
    (h : List.Forall₂ (fun cs ls => Cuts false cs ls false) css lss) :
    Cuts false ([',', ' '].intercalate css ++ [')'])
      ([.symbol .comma].intercalate lss ++ [.symbol .rightParen]) false := by
  induction h with
  | nil => exact cuts_rightParen
  | @cons cs ls css lss h hs ih =>
    cases hs with
    | nil =>
      simpa using h.append (border_of_mem (by decide)) cuts_rightParen
    | @cons cs' ls' css lss h' hs =>
      have hrest := cuts_symbol (c := ',') rfl (fun _ => rfl) (by decide) (cuts_space ih)
      have htext := h.append (border_of_mem (by decide)) hrest
      simpa using htext

theorem toList_arguments (args : List String) : (Snippet.arguments args).toList =
    '(' :: ([',', ' '].intercalate (args.map String.toList) ++ [')']) := by
  simp [Snippet.arguments, String.toList_intercalate]

theorem cuts_application {name : String} (hname : isIdentifier name = true) {args : List String}
    {lss : List (List Lexeme)}
    (h : List.Forall₂ (fun arg ls => Cuts false arg.toList ls false) args lss) :
    Cuts false (Snippet.application (Snippet.entry name) args).toList
      (.identifier (Snippet.entry name) :: .symbol .leftParen ::
        ([.symbol .comma].intercalate lss ++ [.symbol .rightParen])) false := by
  have hargs := cuts_leftParen (cuts_intercalate (List.forall₂_map_left_iff.mpr h))
  unfold Snippet.application
  rw [String.toList_append, toList_arguments]
  exact (cuts_of_isPlain (isPlain_entry hname)).append (border_of_mem (by decide)) hargs

namespace Fragment

mutual

/-- The text of a fragment is cut into its lexemes. -/
theorem cuts : (t : Fragment) → Cuts false t.text.toList t.lexemes false
  | literal l => cuts_literal l
  | root name hname _ => cuts_of_isPlain (isPlain_of_isIdentifier hname)
  | path base properties => cuts_path base.cuts properties
  | element base index => by
    have htext : (element base index).text.toList =
        base.text.toList ++ '[' :: (index.text.toList ++ [']']) := by
      show (base.text ++ "[" ++ index.text ++ "]").toList = _
      simp
    rw [htext]
    exact base.cuts.append (border_of_mem (by decide)) (cuts_bracketed index.cuts)
  | call name hname args => cuts_application hname (cuts_all args)
  | construct name hname args => by
    have htext : (construct name hname args).text.toList =
        "new".toList ++ ' ' :: (call name hname args).text.toList := by
      show ("new " ++ _ ++ _).toList = "new".toList ++ ' ' :: (_ ++ _ : String).toList
      simp
    have hnew : Cuts false "new".toList [.identifier "new"] false :=
      cuts_of_isPlain (isPlain_of_isIdentifier (by decide))
    rw [htext]
    exact hnew.append (border_of_mem (by decide))
      (cuts_space (cuts_application hname (cuts_all args)))

theorem cuts_all : (ts : List Fragment) →
    List.Forall₂ (fun arg ls => Cuts false arg.toList ls false) (texts ts) (lexemesOfAll ts)
  | [] => .nil
  | t :: ts => .cons t.cuts (cuts_all ts)

end

end Fragment

/-! ## Levels -/

/-- The levels that a literal holds at once: a sign holds one, and the parentheses around it hold
another. -/
def Literal.levels : Literal → Nat
  | .int n => if n < 0 then 2 else 0
  | .bool _ | .text _ => 0

theorem Literal.levels_le (l : Literal) : l.levels ≤ 2 := by
  unfold Literal.levels
  split
  · split_ifs <;> decide
  all_goals exact Nat.zero_le 2

namespace Fragment

mutual

/-- The calls and properties at the end of a fragment. Each one holds a level up to the end. -/
def links : Fragment → Nat
  | literal _ | root .. | construct .. => 0
  | path base properties => base.links + properties.length
  | element base _ => base.links + 1
  | call .. => 1

/-- The levels that a fragment holds at once before its end. -/
def levels : Fragment → Nat
  | literal l => l.levels
  | root .. => 0
  | path base _ => base.levels
  | element base index => max base.levels (base.links + (1 + max index.levels index.links))
  | call _ _ args | construct _ _ args => 1 + levelsOfAll args

/-- The levels that all arguments hold at once. -/
def levelsOfAll : List Fragment → Nat
  | [] => 0
  | t :: ts => max (1 + max t.levels t.links) (levelsOfAll ts)

end

end Fragment

/-! ## Reading -/

variable {e : Expr} {m n : Nat} {u v rest : List Lexeme}

theorem parses_unary_number {level k : Nat} (hk : k < 2 ^ 63) (hstop : Stops level v.head?) :
    Parses (.unary (.int (Int64.ofNat k))) 0 (.number (toString k) :: v) v :=
  parses_unary_of_primary (.number (numeralValue?_toString hk)) rfl hstop

theorem parses_negated {level k : Nat} (hk : k < 2 ^ 63) (hstop : Stops level v.head?) :
    Parses (.unary (.int (-Int64.ofNat k))) 1 (.symbol .dash :: .number (toString k) :: v) v := by
  have hop : Reader.unaryOf? (some (.symbol .dash)) = some .neg := rfl
  exact .unaryStep hop (parses_unary_number hk hstop)

theorem eq_neg_ofNat_natAbs {n : Int64} (h : n.toInt < 0) : -Int64.ofNat n.toInt.natAbs = n := by
  rw [← Int64.ofInt_eq_ofNat, Int.ofNat_natAbs_of_nonpos h.le, ← Int64.ofInt_neg, Int.neg_neg,
    Int64.ofInt_toInt]

theorem eq_ofNat_natAbs {n : Int64} (h : 0 ≤ n.toInt) : Int64.ofNat n.toInt.natAbs = n := by
  rw [← Int64.ofInt_eq_ofNat, Int.natAbs_of_nonneg h, Int64.ofInt_toInt]

theorem parses_least (rest : List Lexeme) : Parses
    (.primary (.binary .sub (.int (-9223372036854775807)) (.int 1))) 2
    (.symbol .leftParen :: .symbol .dash :: .number "9223372036854775807" :: .symbol .dash ::
      .number "1" :: .symbol .rightParen :: rest) rest := by
  have hop : BinaryOp.ofSymbol? .dash = some .sub := rfl
  have hdash : Stops 9 (List.head? (.symbol .dash :: .number "1" :: .symbol .rightParen :: rest)) :=
    stops_of_ofSymbol? hop
  have hfirst : Parses (.binary 9 (.int (-9223372036854775807))) 1 _ _ :=
    parses_binary_of_unary (parses_negated (k := 9223372036854775807) (by decide) hdash)
      (by decide) hdash
  have hsecond : Parses (.binary 9 (.int 1)) 0 _ _ :=
    parses_binary_of_unary (parses_unary_number (k := 1) (by decide) (stops_rightParen 9 rest))
      (by decide) (stops_rightParen 9 rest)
  have hchain : Parses (.binaryChain 8 (.int (-9223372036854775807)) 0 _) 1 _ _ :=
    .binaryStep (Reader.infixOf?_eq_some.mpr ⟨hop, rfl⟩) hsecond
      (.binaryEnd ((stops_rightParen 8 rest).1 8 le_rfl))
  have hdifference := Parses.level (by decide) hfirst hchain
  exact .group (.plain (parses_binary_of_le hdifference (by decide) (Nat.zero_le _)
    (stops_rightParen 0 rest)) (by simp))

theorem parses_literal (l : Literal) (rest : List Lexeme) :
    Parses (.primary l.tree) l.levels (l.lexemes ++ rest) rest := by
  cases l with
  | int n =>
    have hbounds := And.intro n.le_toInt n.toInt_lt
    unfold Literal.tree Literal.levels Literal.lexemes
    dsimp only
    by_cases hmin : n = Int64.minValue
    · rw [if_pos hmin, if_pos hmin, if_pos (by rw [hmin]; decide)]
      exact parses_least rest
    · by_cases hneg : n < 0
      · have hint : n.toInt < 0 := Int64.lt_iff_toInt_lt.mp hneg
        have hlt : n.toInt.natAbs < 2 ^ 63 := by
          have hne : n.toInt ≠ Int64.minValue.toInt := fun h => hmin (Int64.toInt_inj.mp h)
          rw [Int64.toInt_minValue] at hne
          omega
        have hsigned : Parses (.unary (.int (-Int64.ofNat n.toInt.natAbs))) 1 _ _ :=
          parses_negated hlt (stops_rightParen 0 rest)
        rw [eq_neg_ofNat_natAbs hint] at hsigned
        rw [if_neg hmin, if_neg hmin, if_pos hneg, if_pos hneg]
        exact .group (parses_expression_of_unary hsigned (stops_rightParen 0 rest) (by simp))
      · have hint : 0 ≤ n.toInt := Int.not_lt.mp fun h => hneg (Int64.lt_iff_toInt_lt.mpr h)
        have hvalue := numeralValue?_toString (n := n.toInt.natAbs) (by omega)
        rw [eq_ofNat_natAbs hint] at hvalue
        rw [if_neg hmin, if_neg hmin, if_neg hneg, if_neg hneg]
        exact .number hvalue
  | bool b =>
    cases b with
    | true => exact .trueWord
    | false => exact .falseWord
  | text s => exact .text

theorem propertyTree_cases (object : Expr) (name : String) :
    (∃ n, name = toString n ∧ n < 2 ^ 63 ∧ Snippet.isIndexText name = true ∧
      propertyTree object name = .index object (.int (Int64.ofNat n))) ∨
    (Snippet.isIndexText name = false ∧ (isIdentifier name && !isKeyword name) = true ∧
      propertyTree object name = .member object name) ∨
    (Snippet.isIndexText name = false ∧ (isIdentifier name && !isKeyword name) = false ∧
      propertyTree object name = .index object (.text name)) := by
  unfold propertyTree
  cases hindex : canonicalIndex? name with
  | some n =>
    obtain ⟨hname, hn⟩ := canonicalIndex?_eq_some.mp hindex
    exact Or.inl ⟨n, hname, hn, isIndexText_iff.mpr ⟨n, hname, hn⟩, rfl⟩
  | none =>
    have hnot : Snippet.isIndexText name = false := by
      by_contra h
      rw [Bool.not_eq_false] at h
      obtain ⟨n, hn⟩ := isIndexText_iff.mp h
      rw [canonicalIndex?_eq_some.mpr hn] at hindex
      cases hindex
    cases hname : isIdentifier name && !isKeyword name with
    | true => exact Or.inr (Or.inl ⟨hnot, rfl, rfl⟩)
    | false => exact Or.inr (Or.inr ⟨hnot, rfl, rfl⟩)

/-- A property with what follows it. Its key, if any, holds no more than its own level. -/
theorem parses_property {object : Expr} {held : Nat} (name : String)
    (h : Parses (.applicationChain (propertyTree object name) (held + 1) e) n rest v) :
    Parses (.applicationChain object held e) (1 + n) (propertyLexemes name ++ rest) v := by
  have hstop : Stops 0 (Lexeme.symbol .rightBracket :: rest).head? := stops_cons rfl (by decide) 0 _
  rcases propertyTree_cases object name with
    ⟨k, rfl, hk, hindex, htree⟩ | ⟨hindex, hname, htree⟩ | ⟨hindex, hname, htree⟩
  · rw [htree] at h
    have hkey := parses_expression_of_unary (parses_unary_number hk hstop) hstop (by simp)
    rw [propertyLexemes, if_pos hindex]
    exact (Parses.propertyStep (.index hkey) h).of_eq (by omega)
  · rw [htree] at h
    rw [propertyLexemes, if_neg (by simp [hindex]), if_pos hname]
    exact (Parses.propertyStep .member h).of_eq (by omega)
  · rw [htree] at h
    have htext : Parses (.primary (.text name)) 0
        (.text name :: .symbol .rightBracket :: rest) (.symbol .rightBracket :: rest) := .text
    have hkey := parses_expression_of_unary (parses_unary_of_primary htext rfl hstop) hstop
      (by simp)
    rw [propertyLexemes, if_neg (by simp [hindex]), if_neg (by simp [hname])]
    exact (Parses.propertyStep (.index hkey) h).of_eq (by omega)

theorem parses_path {object : Expr} {held : Nat} (properties : List String)
    (h : Parses (.applicationChain (properties.foldl propertyTree object)
      (held + properties.length) e) n rest v) :
    Parses (.applicationChain object held e) (properties.length + n)
      (properties.flatMap propertyLexemes ++ rest) v := by
  induction properties generalizing object held with
  | nil => exact h.of_eq (Nat.zero_add n).symm
  | cons name properties ih =>
    rw [List.length_cons, ← Nat.add_assoc, Nat.add_right_comm] at h
    rw [List.flatMap_cons, List.append_assoc]
    exact (parses_property name (ih h)).of_eq (by rw [List.length_cons]; omega)

theorem Literal.front (l : Literal) : ∃ x w, l.lexemes = x :: w ∧ x.Opens ∧
    Reader.unaryOf? (some x) = none := by
  cases l with
  | int n =>
    unfold Literal.lexemes
    dsimp only
    split_ifs
    · exact ⟨_, _, rfl, Or.inl rfl, rfl⟩
    · exact ⟨_, _, rfl, Or.inl rfl, rfl⟩
    · exact ⟨_, _, rfl, trivial, rfl⟩
  | bool b => cases b <;> exact ⟨_, _, rfl, ⟨by decide, by decide⟩, rfl⟩
  | text s => exact ⟨_, _, rfl, trivial, rfl⟩

theorem isKeyword_entry (name : String) : isKeyword (Snippet.entry name) = false := by
  have hentry : (Snippet.entry name).toList.head? = some '$' := by
    show ("$" ++ name).toList.head? = _
    simp
  have hwords : ∀ word ∈ keywords, word.toList.head? ≠ some '$' := by decide
  rw [isKeyword, List.contains_eq_mem, decide_eq_false_iff_not]
  exact fun hmem => hwords _ hmem hentry

namespace Fragment

theorem front : (t : Fragment) → ∃ x w, t.lexemes = x :: w ∧ x.Opens ∧
    Reader.unaryOf? (some x) = none
  | literal l => l.front
  | root name _ hkeyword => by
    obtain ⟨-, -, -, hif⟩ := ne_of_isKeyword hkeyword
    exact ⟨_, _, rfl, not_or.mp hif, rfl⟩
  | path base properties => by
    obtain ⟨x, w, hw, hx⟩ := base.front
    exact ⟨x, _, by rw [lexemes, hw]; rfl, hx⟩
  | element base index => by
    obtain ⟨x, w, hw, hx⟩ := base.front
    exact ⟨x, _, by rw [lexemes, hw]; rfl, hx⟩
  | call name _ args => by
    obtain ⟨-, -, -, hif⟩ := ne_of_isKeyword (isKeyword_entry name)
    exact ⟨_, _, rfl, not_or.mp hif, rfl⟩
  | construct .. => ⟨_, _, rfl, ⟨by decide, by decide⟩, rfl⟩

/-- A fragment as an expression, in front of what goes on with none. -/
theorem parses_expression {t : Fragment}
    (h : ∀ {e : Expr} {n : Nat} {rest v : List Lexeme},
      Parses (.applicationChain t.tree t.links e) n rest v →
        Parses (.application e) (max t.levels (t.links + n)) (t.lexemes ++ rest) v)
    {rest : List Lexeme} (hstop : Stops 0 rest.head?)
    (hq : rest.head? ≠ some (.symbol .question)) :
    Parses (.expression t.tree) (1 + max t.levels t.links) (t.lexemes ++ rest) rest := by
  obtain ⟨x, w, hw, -, hx⟩ := t.front
  have happ := h (.applicationEnd hstop.2.1 (.noProperty hstop.2.2.1 hstop.2.2.2))
  have hu : Reader.unaryOf? (t.lexemes ++ rest).head? = none := by
    rw [hw]
    exact hx
  exact parses_expression_of_unary (.unaryEnd hu happ) hstop hq

theorem parses_arguments {ts : List Fragment} (rest : List Lexeme)
    (h : ts ≠ [] → Parses (.argumentsAfter (trees ts)) (levelsOfAll ts)
      ([.symbol .comma].intercalate (lexemesOfAll ts) ++ .symbol .rightParen :: rest) rest) :
    Parses (.arguments (trees ts)) (levelsOfAll ts)
      ([.symbol .comma].intercalate (lexemesOfAll ts) ++ .symbol .rightParen :: rest) rest := by
  cases ts with
  | nil => exact .noArguments
  | cons t ts =>
    refine .someArguments ?_ (h (List.cons_ne_nil t ts))
    obtain ⟨x, w, hw, hx, -⟩ := t.front
    cases ts with
    | nil => simpa [lexemesOfAll, hw] using hx.ne.1
    | cons u ts => simpa [lexemesOfAll, hw] using hx.ne.1

mutual

/-- **A fragment is read as its tree**, whatever calls and properties follow. -/
theorem parses_application : (t : Fragment) → ∀ {e : Expr} {n : Nat} {rest v : List Lexeme},
    Parses (.applicationChain t.tree t.links e) n rest v →
      Parses (.application e) (max t.levels (t.links + n)) (t.lexemes ++ rest) v
  | literal l, e, n, rest, v, h => by
    have happ := Parses.application (parses_literal l rest) h
    exact happ.of_eq (by rw [levels, links, Nat.zero_add])
  | root name _ hkeyword, e, n, rest, v, h => by
    have happ := Parses.application (.ident hkeyword) h
    exact happ.of_eq (by rw [levels, links, Nat.zero_add])
  | path base properties, e, n, rest, v, h => by
    have happ := base.parses_application (parses_path properties h)
    rw [lexemes, List.append_assoc]
    exact happ.of_eq (by rw [levels, links, Nat.add_assoc])
  | element base index, e, n, rest, v, h => by
    have hstop : Stops 0 (Lexeme.symbol .rightBracket :: rest).head? :=
      stops_cons rfl (by decide) 0 _
    have hindex := parses_expression index.parses_application hstop (by simp)
    have happ := base.parses_application (.propertyStep (.index hindex) h)
    rw [lexemes]
    simp only [List.append_assoc, List.cons_append, List.nil_append]
    exact happ.of_eq (by rw [levels, links]; omega)
  | call name _ args, e, n, rest, v, h => by
    have hargs := parses_arguments rest fun hne => parses_argumentsAfter args hne rest
    have happ := Parses.application (.ident (isKeyword_entry name)) (.callStep hargs h)
    rw [lexemes]
    simp only [List.append_assoc, List.cons_append, List.nil_append]
    exact happ.of_eq (by rw [levels, links]; omega)
  | construct name _ args, e, n, rest, v, h => by
    have hargs := parses_arguments rest fun hne => parses_argumentsAfter args hne rest
    have hnew := Parses.new (.construction (.ident (isKeyword_entry name)) (.constructionEnd hargs))
    have happ := Parses.application hnew h
    rw [lexemes]
    simp only [List.append_assoc, List.cons_append, List.nil_append]
    exact happ.of_eq (by rw [levels, links]; omega)

theorem parses_argumentsAfter : (ts : List Fragment) → ts ≠ [] → (rest : List Lexeme) →
    Parses (.argumentsAfter (trees ts)) (levelsOfAll ts)
      ([.symbol .comma].intercalate (lexemesOfAll ts) ++ .symbol .rightParen :: rest) rest
  | [], hne, _ => absurd rfl hne
  | [t], _, rest => by
    have harg := parses_expression t.parses_application (stops_rightParen 0 rest) (by simp)
    have hargs := Parses.lastArgument harg
    simp only [lexemesOfAll, List.intercalate_singleton]
    exact hargs.of_eq (Nat.max_zero _).symm
  | t :: u :: ts, _, rest => by
    have hstop : ∀ w : List Lexeme, Stops 0 (Lexeme.symbol .comma :: w).head? :=
      stops_cons rfl (by decide) 0
    have hrest := parses_argumentsAfter (u :: ts) (List.cons_ne_nil u ts) rest
    have harg := parses_expression t.parses_application
      (hstop ([.symbol .comma].intercalate (lexemesOfAll (u :: ts)) ++ .symbol .rightParen :: rest))
      (by simp)
    have hargs := Parses.moreArguments harg hrest
    simpa [lexemesOfAll, trees, levelsOfAll] using hargs

end

/-! ## Texts -/

theorem links_le_helpers : (t : Fragment) → t.links ≤ t.helpers
  | literal _ | root .. | construct .. => Nat.zero_le _
  | path base properties => by
    have hbase := base.links_le_helpers
    rw [links, helpers]
    omega
  | element base index => by
    have hbase := base.links_le_helpers
    rw [links, helpers]
    omega
  | call _ _ args => Nat.le_add_left 1 (helpersOfAll args)

mutual

/-- Every helper holds two levels at most. -/
theorem levels_le : (t : Fragment) → max t.levels t.links ≤ 2 * t.helpers + 2
  | literal l => by
    have hl := l.levels_le
    rw [levels, links, helpers]
    omega
  | root .. => Nat.zero_le _
  | path base properties => by
    have hbase := base.levels_le
    rw [levels, links, helpers]
    omega
  | element base index => by
    have hbase := base.levels_le
    have hlinks := base.links_le_helpers
    have hindex := index.levels_le
    rw [levels, links, helpers]
    omega
  | call _ _ args => by
    have hargs := levelsOfAll_le args
    rw [levels, links, helpers]
    omega
  | construct _ _ args => by
    have hargs := levelsOfAll_le args
    rw [levels, links, helpers]
    omega

theorem levelsOfAll_le : (ts : List Fragment) → levelsOfAll ts ≤ 2 * helpersOfAll ts + 3
  | [] => Nat.zero_le _
  | t :: ts => by
    have ht := t.levels_le
    have hts := levelsOfAll_le ts
    rw [levelsOfAll, helpersOfAll]
    omega

end

theorem parses_self (t : Fragment) {rest : List Lexeme} (hstop : Stops 0 rest.head?)
    (hq : rest.head? ≠ some (.symbol .question)) :
    Parses (.expression t.tree) (1 + max t.levels t.links) (t.lexemes ++ rest) rest :=
  parses_expression t.parses_application hstop hq

/-- A statement that begins with a fragment. -/
theorem parses_alone (t : Fragment) {s : Stmt} {m : Nat} {rest : List Lexeme}
    (hs : s.isConditional = false) (h : (t.lexemes ++ rest).head? ≠ some (.identifier "if") →
      Parses (.statementBody s) m (t.lexemes ++ rest) []) :
    Parses (.statements none [s]) (1 + m) (t.lexemes ++ rest) [] := by
  obtain ⟨x, w, hw, hx, -⟩ := t.front
  obtain ⟨-, hsemi, hif⟩ := hx.ne
  rw [hw] at h ⊢
  exact parses_statement (j := 0) hs (by simp) (by simpa using hsemi)
    (.statement (h (by simpa using hif)))

theorem parses_statement_expr (t : Fragment) :
    Parses (.statements none [.expr t.tree]) (2 + max t.levels t.links) t.lexemes [] := by
  have hnil : Stops 0 ([] : List Lexeme).head? := stops_none 0
  have hself := t.parses_self hnil (by simp)
  have hbody := t.parses_alone rfl fun hif => .expressionBody hif hself (by simp)
  rw [List.append_nil] at hbody
  exact hbody.of_eq (by omega)

theorem parses_statement_assign (t u : Fragment) :
    Parses (.statements none [.assign t.tree u.tree])
      (2 + max (max t.levels t.links) (max u.levels u.links))
      (t.lexemes ++ .symbol .equals :: u.lexemes) [] := by
  have htarget := t.parses_self (stops_cons (s := .equals) rfl (by decide) 0 u.lexemes) (by simp)
  have hnil : Stops 0 ([] : List Lexeme).head? := stops_none 0
  have hvalue := u.parses_self hnil (by simp)
  rw [List.append_nil] at hvalue
  have hbody := t.parses_alone rfl fun hif => .assignmentBody hif htarget hvalue
  exact hbody.of_eq (by omega)

theorem cuts_assignment (t u : Fragment) : Cuts false (Snippet.assignment t.text u.text).toList
    (t.lexemes ++ .symbol .equals :: u.lexemes) false := by
  have htext : (Snippet.assignment t.text u.text).toList =
      t.text.toList ++ ' ' :: '=' :: ' ' :: u.text.toList := by
    show (t.text ++ " = " ++ u.text).toList = _
    simp
  rw [htext]
  exact t.cuts.append (border_of_mem (by decide)) (cuts_space
    (cuts_cons (by decide) (by simp) rfl (cuts_space u.cuts)))

/-- **The text of a fragment is read as what it denotes**, and so is an assignment, unless it is
nested too deeply. Thirty helpers never nest it too deeply. -/
theorem parse_text :
    (∀ t : Fragment,
      (parse t.text = .ok [.expr t.tree] ∨
        ∃ p, parse t.text = .error (.grammatical p .nestedTooDeeply)) ∧
      (t.helpers ≤ 30 → parse t.text = .ok [.expr t.tree])) ∧
    ∀ t u : Fragment,
      (parse (Snippet.assignment t.text u.text) = .ok [.assign t.tree u.tree] ∨
        ∃ p, parse (Snippet.assignment t.text u.text) =
          .error (.grammatical p .nestedTooDeeply)) ∧
      (t.helpers ≤ 30 → u.helpers ≤ 30 →
        parse (Snippet.assignment t.text u.text) = .ok [.assign t.tree u.tree]) := by
  refine ⟨fun t => ?_, fun t u => ?_⟩
  · have hyields := yields_of_cuts t.cuts rfl .start
    have ht := t.levels_le
    refine ⟨parse_eq_ok_or_error hyields t.parses_statement_expr, fun ht' => ?_⟩
    refine parse_eq_ok_iff_parses.mpr ⟨_, hyields, _, ?_, t.parses_statement_expr⟩
    rw [maxNesting]
    omega
  · have hyields := yields_of_cuts (t.cuts_assignment u) rfl .start
    have ht := t.levels_le
    have hu := u.levels_le
    refine ⟨parse_eq_ok_or_error hyields (t.parses_statement_assign u), fun ht' hu' => ?_⟩
    refine parse_eq_ok_iff_parses.mpr ⟨_, hyields, _, ?_, t.parses_statement_assign u⟩
    rw [maxNesting]
    omega

set_option maxRecDepth 4000 in
/-- Properties that are no names, and literals with a sign. -/
theorem parse_sampleAssignment :
    parse "ctx.V[\"if\"][0][\"07\"] = $add8(new $Cell(), (-1))" =
      .ok [.assign
        (.index (.index (.index (.member (.ident "ctx") "V") (.text "if")) (.int 0)) (.text "07"))
        (.call (.ident "$add8") [.construct (.ident "$Cell") [], .int (-1)])] :=
  (parse_text.2 (.path (.root "ctx" rfl rfl) ["V", "if", "0", "07"])
    (.call "add8" rfl [.construct "Cell" rfl [], .literal (.int (-1))])).2 (by decide) (by decide)

end Fragment

end Isa16
