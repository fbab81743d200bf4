import Isa16.Proofs.Program.Joining
import Isa16.Proofs.Program.Fragments

/-!
# Texts of assignments

* `Clause`: a fragment, or an operator between two, with its text, its lexemes and the tree that it
  denotes.
* `Clause.parses`, `Clause.cuts`: the text is read as the tree.
* `parse_assignment`, `parse_conditional`: an assignment of a clause, alone and behind a condition.
-/

namespace Isa16

/-- A fragment, or an operator between two. -/
inductive Clause
  | single (t : Fragment)
  | joined (t : Fragment) (s : Symbol) (op : BinaryOp) (hop : BinaryOp.ofSymbol? s = some op)
    (u : Fragment)

namespace Fragment

theorem parses_unary (t : Fragment) {level : Nat} {rest : List Lexeme}
    (hstop : Stops level rest.head?) :
    Parses (.unary t.tree) (max t.levels t.links) (t.lexemes ++ rest) rest := by
  obtain ⟨x, w, hw, -, hx⟩ := t.front
  have happ : Parses (.application t.tree) (max t.levels (t.links + 0)) (t.lexemes ++ rest) rest :=
    t.parses_application (.applicationEnd hstop.2.1 (.noProperty hstop.2.2.1 hstop.2.2.2))
  refine .unaryEnd ?_ happ
  rw [hw]
  exact hx

end Fragment

namespace Clause

/-- The text of a clause. -/
def text : Clause → String
  | single t => t.text
  | joined t s _ _ u => t.text ++ " " ++ s.text ++ " " ++ u.text

/-- What a clause denotes. -/
def tree : Clause → Expr
  | single t => t.tree
  | joined t _ op _ u => .binary op t.tree u.tree

/-- The lexemes of a clause. -/
def lexemes : Clause → List Lexeme
  | single t => t.lexemes
  | joined t s _ _ u => t.lexemes ++ .symbol s :: u.lexemes

/-- The levels that a clause holds. -/
def levels : Clause → Nat
  | single t => 1 + max t.levels t.links
  | joined t _ _ _ u => 1 + max (max t.levels t.links) (1 + max u.levels u.links)

/-- The most helpers on one side of the operator. -/
def helpers : Clause → Nat
  | single t => t.helpers
  | joined t _ _ _ u => max t.helpers u.helpers

theorem levels_le (v : Clause) : v.levels ≤ 2 * v.helpers + 4 := by
  cases v with
  | single t =>
    have ht := t.levels_le
    rw [levels, helpers]
    omega
  | joined t s op hop u =>
    have ht := t.levels_le
    have hu := u.levels_le
    rw [levels, helpers]
    omega

/-- **The lexemes of a clause are read as its tree**. -/
theorem parses (v : Clause) {rest : List Lexeme} (hstop : Stops 0 rest.head?)
    (hq : rest.head? ≠ some (.symbol .question)) :
    Parses (.expression v.tree) v.levels (v.lexemes ++ rest) rest := by
  cases v with
  | single t => exact t.parses_self hstop hq
  | joined t s op hop u =>
    have hlevel : op.level < BinaryOp.levels := op.level_lt_levels
    have hu := parses_binary_of_unary (u.parses_unary (hstop.mono (Nat.zero_le (op.level + 1))))
      hlevel (hstop.mono (Nat.zero_le (op.level + 1)))
    have hsymbol : Stops (op.level + 1) (Lexeme.symbol s :: (u.lexemes ++ rest)).head? :=
      stops_of_ofSymbol? hop
    have ht := parses_binary_of_unary (t.parses_unary hsymbol) hlevel hsymbol
    have hend : Parses (.binaryChain op.level (.binary op t.tree u.tree) (0 + 1) _) 0 rest rest :=
      .binaryEnd (hstop.1 op.level (Nat.zero_le _))
    have hchain : Parses (.binaryChain op.level t.tree 0 (.binary op t.tree u.tree)) _ _ rest :=
      .binaryStep (Reader.infixOf?_eq_some.mpr ⟨hop, rfl⟩) hu hend
    have hbinary := parses_binary_of_le (Parses.level hlevel ht hchain) hlevel.le (Nat.zero_le _)
      hstop
    rw [lexemes, List.append_assoc, List.cons_append]
    exact (Parses.plain hbinary hq).of_eq (by rw [levels, Nat.max_zero])

theorem cuts (v : Clause) : Cuts false v.text.toList v.lexemes false := by
  cases v with
  | single t => exact t.cuts
  | joined t s op hop u =>
    have htext : (joined t s op hop u).text.toList =
        t.text.toList ++ ' ' :: (s.text.toList ++ ' ' :: u.text.toList) := by
      simp [text]
    have hborder : Border ' ' := border_of_mem (by decide)
    have hsymbol : Cuts false s.text.toList [.symbol s] false := cuts_of_isPlain (isPlain_symbol s)
    rw [htext]
    exact t.cuts.append hborder (cuts_space (hsymbol.append hborder (cuts_space u.cuts)))

end Clause

variable (t : Fragment) (v : Clause)

/-! ## Assignments -/

/-- The lexemes of an assignment. -/
def assignmentLexemes : List Lexeme :=
  t.lexemes ++ .symbol .equals :: v.lexemes

theorem cuts_assignment : Cuts false (Snippet.assignment t.text v.text).toList
    (assignmentLexemes t v) false := by
  have htext : (Snippet.assignment t.text v.text).toList =
      t.text.toList ++ ' ' :: '=' :: ' ' :: v.text.toList := by
    show (t.text ++ " = " ++ v.text).toList = _
    simp
  rw [htext]
  exact t.cuts.append (border_of_mem (by decide)) (cuts_space
    (cuts_cons (by decide) (by simp) rfl (cuts_space v.cuts)))

/-- The levels that an assignment holds. -/
def assignmentLevels : Nat :=
  1 + max (1 + max t.levels t.links) v.levels

theorem parses_assignment {rest : List Lexeme} (hstop : Stops 0 rest.head?)
    (hq : rest.head? ≠ some (.symbol .question)) :
    Parses (.statement (.assign t.tree v.tree)) (assignmentLevels t v)
      (assignmentLexemes t v ++ rest) rest := by
  obtain ⟨x, w, hw, hx, -⟩ := t.front
  obtain ⟨-, -, hif⟩ := hx.ne
  rw [assignmentLexemes, List.append_assoc, List.cons_append]
  have htarget := t.parses_self (stops_cons (s := .equals) rfl (by decide) 0 (v.lexemes ++ rest))
    (by simp)
  refine .statement (.assignmentBody ?_ htarget (v.parses hstop hq))
  rw [hw]
  simpa using hif

/-- An assignment does not begin as what ends or separates statements. -/
theorem head?_assignmentLexemes (rest : List Lexeme) :
    ∃ x, (assignmentLexemes t v ++ rest).head? = some x ∧ x ≠ semicolon ∧
      x ≠ .symbol .rightBrace := by
  obtain ⟨x, w, hw, hx, -⟩ := t.front
  refine ⟨x, by rw [assignmentLexemes, hw]; rfl, hx.ne.2.1, ?_⟩
  rintro rfl
  simp [Lexeme.Opens, UnaryOp.ofSymbol?] at hx

theorem parses_assignment_alone (closing : Option Symbol) (rest : List Lexeme)
    (hclosing : closing = none ∨ closing = some .rightBrace)
    (hrest : rest.head? = closing.map .symbol) :
    Parses (.statements closing [.assign t.tree v.tree]) (assignmentLevels t v)
      (assignmentLexemes t v ++ rest) rest := by
  obtain ⟨x, hx, hsemi, hbrace⟩ := head?_assignmentLexemes t v rest
  have hstop : Stops 0 rest.head? ∧ rest.head? ≠ some (.symbol .question) := by
    rw [hrest]
    rcases hclosing with rfl | rfl
    · exact ⟨stops_none 0, by simp⟩
    · exact ⟨stops_cons rfl (by decide) 0 [], by simp⟩
  refine (Parses.statementsCons ?_ ?_ (parses_assignment t v hstop.1 hstop.2) (.closed rfl hrest)
    (.statementsEnd hrest)).of_eq (Nat.max_zero _)
  · rw [hx]
    rcases hclosing with rfl | rfl
    · simp
    · simpa using hbrace
  · simpa [hx] using hsemi

theorem parse_assignment (ht : t.helpers ≤ 20) (hv : v.helpers ≤ 20) :
    parse (Snippet.assignment t.text v.text) = .ok [.assign t.tree v.tree] := by
  have hparses := parses_assignment_alone t v none [] (Or.inl rfl) rfl
  rw [List.append_nil] at hparses
  refine parse_eq_ok_iff_cuts.mpr ⟨_, false, cuts_assignment t v, _, ?_, hparses⟩
  have htarget := t.levels_le
  have hvalue := v.levels_le
  rw [maxNesting, assignmentLevels]
  omega

/-! ## An assignment behind a condition -/

variable (c : Clause)

/-- An assignment behind a condition. -/
def conditionalText : String :=
  "if (" ++ c.text ++ ") \x7b " ++ Snippet.assignment t.text v.text ++ " \x7d"

/-- The lexemes of an assignment behind a condition. -/
def conditionalLexemes : List Lexeme :=
  .identifier "if" :: .symbol .leftParen :: (c.lexemes ++ .symbol .rightParen ::
    .symbol .leftBrace :: (assignmentLexemes t v ++ [.symbol .rightBrace]))

theorem cuts_conditional : Cuts false (conditionalText t v c).toList
    (conditionalLexemes t v c) false := by
  have htext : (conditionalText t v c).toList =
      ['i', 'f'] ++ ' ' :: '(' :: (c.text.toList ++ ')' :: ' ' :: '\x7b' :: ' ' ::
        ((Snippet.assignment t.text v.text).toList ++ ' ' :: ['\x7d'])) := by
    simp [conditionalText]
  have hspace : Border ' ' := border_of_mem (by decide)
  have hif : Cuts false ['i', 'f'] [.identifier "if"] false :=
    cuts_of_isPlain (l := .identifier "if") (isPlain_of_isIdentifier (by decide))
  have hbrace : Cuts false ['\x7d'] [.symbol .rightBrace] false :=
    cuts_symbol rfl (fun _ => rfl) (by decide) cuts_nil
  have hbody := (cuts_assignment t v).append hspace (cuts_space hbrace)
  have hblock : Cuts false (')' :: ' ' :: '\x7b' :: ' ' :: _) _ false :=
    cuts_symbol rfl (fun _ => rfl) (by decide) (cuts_space
      (cuts_symbol rfl (fun _ => rfl) (by decide) (cuts_space hbody)))
  have hcondition := c.cuts.append (border_of_mem (by decide)) hblock
  rw [htext]
  exact hif.append hspace (cuts_space (cuts_leftParen hcondition))

theorem parses_conditional : Parses (.statements none [.ite c.tree [.assign t.tree v.tree] []])
    (1 + max c.levels (assignmentLevels t v)) (conditionalLexemes t v c) [] := by
  have hcondition := c.parses (stops_rightParen 0 (.symbol .leftBrace ::
    (assignmentLexemes t v ++ [.symbol .rightBrace]))) (by simp)
  have hblock := Parses.block (parses_assignment_alone t v (some .rightBrace)
    [.symbol .rightBrace] (Or.inr rfl) rfl)
  have hbody : Parses (.conditionalStatement (.ite c.tree [.assign t.tree v.tree] []))
      (max c.levels (assignmentLevels t v)) (conditionalLexemes t v c) [] :=
    .ifOnly hcondition hblock (by simp)
  have hstatement : Parses (.statement _) (1 + max c.levels (assignmentLevels t v))
      (conditionalLexemes t v c) [] := .statement (.conditionalBody hbody)
  refine (Parses.statementsCons ?_ ?_ hstatement (.conditional rfl) (.statementsEnd rfl)).of_eq
    (Nat.max_zero _)
  · simp [conditionalLexemes]
  · simp [conditionalLexemes]

theorem parse_conditional (hc : c.helpers ≤ 20) (ht : t.helpers ≤ 20) (hv : v.helpers ≤ 20) :
    parse (conditionalText t v c) = .ok [.ite c.tree [.assign t.tree v.tree] []] := by
  refine parse_eq_ok_iff_cuts.mpr ⟨_, false, cuts_conditional t v c, _, ?_,
    parses_conditional t v c⟩
  have hcondition := c.levels_le
  have htarget := t.levels_le
  have hvalue := v.levels_le
  rw [maxNesting, assignmentLevels]
  omega

end Isa16
