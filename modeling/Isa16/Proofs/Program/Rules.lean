import Isa16.Proofs.Program.Productions

/-!
# Reading lexemes without a limit

* `Parses`: the rules of reading on lists of lexemes, with the number of levels that a phrase needs
  at once instead of a limit on them.
* `Parses.suffix`, `Parses.length_le`: reading goes forward.
* **`Parses.unique`**: what is read, what is left and the levels needed are determined.
-/

namespace Isa16

/-! ## The rules -/

/-- A statement is separated from the lexemes that follow it. -/
inductive Separated (closing : Option Symbol) (s : Stmt) : List Lexeme → List Lexeme → Prop
  | conditional {u : List Lexeme} (hs : s.isConditional = true) : Separated closing s u u
  | closed {u : List Lexeme} (hs : s.isConditional = false)
    (hc : u.head? = closing.map .symbol) : Separated closing s u u
  | semicolon {u : List Lexeme} (hs : s.isConditional = false)
    (hc : closing.map Lexeme.symbol ≠ some (.symbol .semicolon)) :
    Separated closing s (.symbol .semicolon :: u) u

/-- The rules by which phrases are read off the front of a list of lexemes. The number is that of
the levels of nesting that a phrase needs besides those that are held when it begins. -/
inductive Parses : Phrase → Nat → List Lexeme → List Lexeme → Prop
  | statementsEnd {closing : Option Symbol} {u : List Lexeme}
    (h : u.head? = closing.map .symbol) : Parses (.statements closing []) 0 u u
  | statementsSkip {closing : Option Symbol} {ss : List Stmt} {m : Nat} {u v : List Lexeme}
    (hc : closing.map Lexeme.symbol ≠ some (.symbol .semicolon))
    (h : Parses (.statements closing ss) m u v) :
    Parses (.statements closing ss) m (.symbol .semicolon :: u) v
  | statementsCons {closing : Option Symbol} {s : Stmt} {ss : List Stmt} {m n : Nat}
    {u u₁ u₂ v : List Lexeme} (hc : u.head? ≠ closing.map .symbol)
    (hsemi : u.head? ≠ some (.symbol .semicolon)) (hs : Parses (.statement s) m u u₁)
    (hsep : Separated closing s u₁ u₂) (h : Parses (.statements closing ss) n u₂ v) :
    Parses (.statements closing (s :: ss)) (max m n) u v
  | statement {s : Stmt} {m : Nat} {u v : List Lexeme} (h : Parses (.statementBody s) m u v) :
    Parses (.statement s) (1 + m) u v
  | conditionalBody {s : Stmt} {m : Nat} {u v : List Lexeme}
    (h : Parses (.conditionalStatement s) m (.identifier "if" :: u) v) :
    Parses (.statementBody s) m (.identifier "if" :: u) v
  | assignmentBody {target value : Expr} {m n : Nat} {u u₁ v : List Lexeme}
    (hif : u.head? ≠ some (.identifier "if"))
    (ht : Parses (.expression target) m u (.symbol .equals :: u₁))
    (hv : Parses (.expression value) n u₁ v) :
    Parses (.statementBody (.assign target value)) (max m n) u v
  | expressionBody {e : Expr} {m : Nat} {u v : List Lexeme}
    (hif : u.head? ≠ some (.identifier "if")) (he : Parses (.expression e) m u v)
    (heq : v.head? ≠ some (.symbol .equals)) : Parses (.statementBody (.expr e)) m u v
  | ifElse {l : Lexeme} {condition : Expr} {t f : List Stmt} {m n k : Nat} {u u₁ u₂ v : List Lexeme}
    (hc : Parses (.expression condition) m u (.symbol .rightParen :: u₁))
    (ht : Parses (.branch t) n u₁ (.identifier "else" :: u₂)) (hf : Parses (.branch f) k u₂ v) :
    Parses (.conditionalStatement (.ite condition t f)) (max m (max n k))
      (l :: .symbol .leftParen :: u) v
  | ifOnly {l : Lexeme} {condition : Expr} {t : List Stmt} {m n : Nat} {u u₁ v : List Lexeme}
    (hc : Parses (.expression condition) m u (.symbol .rightParen :: u₁))
    (ht : Parses (.branch t) n u₁ v) (helse : v.head? ≠ some (.identifier "else")) :
    Parses (.conditionalStatement (.ite condition t [])) (max m n)
      (l :: .symbol .leftParen :: u) v
  | block {ss : List Stmt} {m : Nat} {u v : List Lexeme}
    (h : Parses (.statements (some .rightBrace) ss) m u (.symbol .rightBrace :: v)) :
    Parses (.branch ss) m (.symbol .leftBrace :: u) v
  | single {s : Stmt} {m : Nat} {u v : List Lexeme}
    (ho : u.head? ≠ some (.symbol .leftBrace)) (h : Parses (.statement s) m u v) :
    Parses (.branch [s]) m u v
  | choice {condition t f : Expr} {m n k : Nat} {u u₁ u₂ v : List Lexeme}
    (hc : Parses (.binary 0 condition) m u (.symbol .question :: u₁))
    (ht : Parses (.expression t) n u₁ (.symbol .colon :: u₂)) (hf : Parses (.expression f) k u₂ v) :
    Parses (.expression (.conditional condition t f)) (1 + max m (max n k)) u v
  | plain {e : Expr} {m : Nat} {u v : List Lexeme} (he : Parses (.binary 0 e) m u v)
    (hq : v.head? ≠ some (.symbol .question)) : Parses (.expression e) (1 + m) u v
  | level {level : Nat} {first e : Expr} {m n : Nat} {u u₁ v : List Lexeme}
    (hl : level < BinaryOp.levels) (hf : Parses (.binary (level + 1) first) m u u₁)
    (h : Parses (.binaryChain level first 0 e) n u₁ v) : Parses (.binary level e) (max m n) u v
  | noLevel {level : Nat} {e : Expr} {m : Nat} {u v : List Lexeme}
    (hl : ¬ level < BinaryOp.levels) (h : Parses (.unary e) m u v) : Parses (.binary level e) m u v
  | binaryStep {level held : Nat} {s : Symbol} {op : BinaryOp} {lhs rhs e : Expr} {m n : Nat}
    {u u₁ v : List Lexeme} (hop : Reader.infixOf? level (some (.symbol s)) = some op)
    (hr : Parses (.binary (level + 1) rhs) m u u₁)
    (h : Parses (.binaryChain level (.binary op lhs rhs) (held + 1) e) n u₁ v) :
    Parses (.binaryChain level lhs held e) (1 + max m n) (.symbol s :: u) v
  | binaryEnd {level held : Nat} {e : Expr} {u : List Lexeme}
    (hop : Reader.infixOf? level u.head? = none) : Parses (.binaryChain level e held e) 0 u u
  | unaryStep {s : Symbol} {op : UnaryOp} {e : Expr} {m : Nat} {u v : List Lexeme}
    (hop : Reader.unaryOf? (some (.symbol s)) = some op) (h : Parses (.unary e) m u v) :
    Parses (.unary (.ofUnary op e)) (1 + m) (.symbol s :: u) v
  | unaryEnd {e : Expr} {m : Nat} {u v : List Lexeme} (hop : Reader.unaryOf? u.head? = none)
    (h : Parses (.application e) m u v) : Parses (.unary e) m u v
  | application {head e : Expr} {m n : Nat} {u u₁ v : List Lexeme}
    (hp : Parses (.primary head) m u u₁) (h : Parses (.applicationChain head 0 e) n u₁ v) :
    Parses (.application e) (max m n) u v
  | callStep {head e : Expr} {args : List Expr} {held m n : Nat} {u u₁ v : List Lexeme}
    (ha : Parses (.arguments args) m u u₁)
    (h : Parses (.applicationChain (.call head args) (held + 1) e) n u₁ v) :
    Parses (.applicationChain head held e) (1 + max m n) (.symbol .leftParen :: u) v
  | propertyStep {head head' e : Expr} {held m n : Nat} {u u₁ v : List Lexeme}
    (hp : Parses (.property head (some head')) m u u₁)
    (h : Parses (.applicationChain head' (held + 1) e) n u₁ v) :
    Parses (.applicationChain head held e) (max m (1 + n)) u v
  | applicationEnd {e : Expr} {held : Nat} {u : List Lexeme}
    (ho : u.head? ≠ some (.symbol .leftParen)) (hp : Parses (.property e none) 0 u u) :
    Parses (.applicationChain e held e) 0 u u
  | member {object : Expr} {name : String} {u : List Lexeme} :
    Parses (.property object (some (.member object name))) 0
      (.symbol .dot :: .identifier name :: u) u
  | index {object key : Expr} {m : Nat} {u v : List Lexeme}
    (h : Parses (.expression key) m u (.symbol .rightBracket :: v)) :
    Parses (.property object (some (.index object key))) m (.symbol .leftBracket :: u) v
  | noProperty {object : Expr} {u : List Lexeme} (hdot : u.head? ≠ some (.symbol .dot))
    (ho : u.head? ≠ some (.symbol .leftBracket)) : Parses (.property object none) 0 u u
  | group {e : Expr} {m : Nat} {u v : List Lexeme}
    (h : Parses (.expression e) m u (.symbol .rightParen :: v)) :
    Parses (.primary e) m (.symbol .leftParen :: u) v
  | number {digits : String} {value : Int64} {u : List Lexeme}
    (hv : numeralValue? digits.toList = some value) :
    Parses (.primary (.int value)) 0 (.number digits :: u) u
  | text {contents : String} {u : List Lexeme} :
    Parses (.primary (.text contents)) 0 (.text contents :: u) u
  | trueWord {u : List Lexeme} : Parses (.primary (.bool true)) 0 (.identifier "true" :: u) u
  | falseWord {u : List Lexeme} : Parses (.primary (.bool false)) 0 (.identifier "false" :: u) u
  | new {e : Expr} {m : Nat} {u v : List Lexeme} (h : Parses (.construction e) m u v) :
    Parses (.primary e) m (.identifier "new" :: u) v
  | ident {name : String} {u : List Lexeme} (hk : isKeyword name = false) :
    Parses (.primary (.ident name)) 0 (.identifier name :: u) u
  | construction {callee e : Expr} {m n : Nat} {u u₁ v : List Lexeme}
    (hp : Parses (.primary callee) m u u₁) (h : Parses (.constructionChain callee 1 e) n u₁ v) :
    Parses (.construction e) (1 + max m n) u v
  | constructionStep {callee callee' e : Expr} {held m n : Nat} {u u₁ v : List Lexeme}
    (hp : Parses (.property callee (some callee')) m u u₁)
    (h : Parses (.constructionChain callee' (held + 1) e) n u₁ v) :
    Parses (.constructionChain callee held e) (max m (1 + n)) u v
  | constructionEnd {callee : Expr} {args : List Expr} {held m : Nat} {u v : List Lexeme}
    (ha : Parses (.arguments args) m u v) :
    Parses (.constructionChain callee held (.construct callee args)) m
      (.symbol .leftParen :: u) v
  | noArguments {u : List Lexeme} : Parses (.arguments []) 0 (.symbol .rightParen :: u) u
  | someArguments {args : List Expr} {m : Nat} {u v : List Lexeme}
    (hc : u.head? ≠ some (.symbol .rightParen)) (h : Parses (.argumentsAfter args) m u v) :
    Parses (.arguments args) m u v
  | moreArguments {arg : Expr} {args : List Expr} {m n : Nat} {u u₁ v : List Lexeme}
    (ha : Parses (.expression arg) m u (.symbol .comma :: u₁))
    (h : Parses (.argumentsAfter args) n u₁ v) :
    Parses (.argumentsAfter (arg :: args)) (max m n) u v
  | lastArgument {arg : Expr} {m : Nat} {u v : List Lexeme}
    (ha : Parses (.expression arg) m u (.symbol .rightParen :: v)) :
    Parses (.argumentsAfter [arg]) m u v

@[grind →]
theorem Separated.suffix {closing : Option Symbol} {s : Stmt} {u v : List Lexeme}
    (h : Separated closing s u v) : v <:+ u := by
  cases h with
  | conditional | closed => exact List.suffix_rfl
  | semicolon => exact List.suffix_cons _ _

theorem Parses.suffix {φ : Phrase} {m : Nat} {u v : List Lexeme} (h : Parses φ m u v) :
    v <:+ u := by
  induction h <;> grind [List.suffix_cons]

/-- Reading goes forward, and past a lexeme for all but the phrases that may be empty. -/
theorem Parses.length_le {φ : Phrase} {m : Nat} {u v : List Lexeme} (h : Parses φ m u v) :
    v.length + φ.least ≤ u.length := by
  induction h <;> grind

theorem Parses.of_eq {φ : Phrase} {m n : Nat} {u v : List Lexeme} (h : Parses φ m u v)
    (hm : m = n) : Parses φ n u v :=
  hm ▸ h

/-! ## Operands without operators -/

variable {e : Expr} {m : Nat} {u v : List Lexeme}

theorem parses_binary_of_le {j k : Nat} (h : Parses (.binary k e) m u v) (hk : k ≤ BinaryOp.levels)
    (hj : j ≤ k) (hstop : Stops j v.head?) : Parses (.binary j e) m u v := by
  induction k, hj using Nat.le_induction with
  | base => exact h
  | succ k hjk ih =>
    have hend : Parses (.binaryChain k e 0 e) 0 v v :=
      .binaryEnd ((hstop.mono hjk).1 k le_rfl)
    exact ih ((Parses.level hk h hend).of_eq (Nat.max_zero m)) (Nat.le_of_succ_le hk)

theorem parses_binary_of_unary {level : Nat} (h : Parses (.unary e) m u v)
    (hl : level ≤ BinaryOp.levels) (hstop : Stops level v.head?) :
    Parses (.binary level e) m u v :=
  parses_binary_of_le (.noLevel (Nat.lt_irrefl _) h) le_rfl hl hstop

theorem parses_expression_of_unary (h : Parses (.unary e) m u v) (hstop : Stops 0 v.head?)
    (hq : v.head? ≠ some (.symbol .question)) : Parses (.expression e) (1 + m) u v :=
  .plain (parses_binary_of_unary h (Nat.zero_le _) hstop) hq

theorem parses_unary_of_primary {level : Nat} (h : Parses (.primary e) m u v)
    (hu : Reader.unaryOf? u.head? = none) (hstop : Stops level v.head?) :
    Parses (.unary e) m u v := by
  obtain ⟨-, hparen, hdot, hbracket⟩ := hstop
  exact .unaryEnd hu ((Parses.application h
    (.applicationEnd hparen (.noProperty hdot hbracket))).of_eq (Nat.max_zero m))

/-! ## Uniqueness -/

theorem Separated.unique {closing : Option Symbol} {s : Stmt} {u v v' : List Lexeme}
    (h : Separated closing s u v) (h' : Separated closing s u v') : v = v' := by
  cases h <;> cases h' <;> grind

@[grind →]
theorem Parses.property_front {object e : Expr} {m : Nat} {u v : List Lexeme}
    (h : Parses (.property object (some e)) m u v) :
    u.head? = some (.symbol .dot) ∨ u.head? = some (.symbol .leftBracket) := by
  cases h with
  | member => exact Or.inl rfl
  | index => exact Or.inr rfl

theorem Parses.property_none {object : Expr} {m : Nat} {u v : List Lexeme}
    (h : Parses (.property object none) m u v) : m = 0 ∧ u = v := by
  cases h
  exact ⟨rfl, rfl⟩

/-- **Reading is determined**: the next lexeme decides which rule applies. -/
theorem Parses.unique {φ ψ : Phrase} {m m' : Nat} {u v v' : List Lexeme} (h : Parses φ m u v)
    (h' : Parses ψ m' u v') (hp : φ.production = ψ.production) : φ = ψ ∧ m = m' ∧ v = v' := by
  have hwords : isKeyword "true" = true ∧ isKeyword "false" = true ∧ isKeyword "new" = true := by
    decide
  generalize hu : u = u' at h'
  induction h generalizing ψ m' u' v' with
  | _ =>
    -- the second reading ends with the same rule, as every other one asks for another front
    cases ψ <;> cases hp
    all_goals cases h' <;> grind [Separated.unique]

end Isa16
