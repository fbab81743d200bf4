import Isa16.Proofs.Program.Levels
import Mathlib.Data.List.DropRight

/-!
# The grammar of expressions

* `Form`, `Derives`: the grammar, with left-recursive rules for operators that bind to the left and
  for calls and properties.
* `derives_of_parses`: what is read is derived. A chain extends whatever was derived in front of it.
* `Derives.front`: what a derived word begins with, by which the routines choose their rules.
* `Form.IsRead`: words are read, in front of what goes on with none of them. Of a left-recursive
  form it says that reading goes on behind it. `Form.isRead_choice` and one lemma for each rule of
  the grammar that puts words together.
* `reads_of_derives`: what is derived is read.
* **`parse_expression_iff_derives`**: a text is read as an expression exactly if its lexemes derive
  it, or it is nested too deeply; no word derives two expressions.
-/

namespace Isa16

/-! ## The grammar -/

/-- A form of the grammar with the tree that it denotes. -/
inductive Form
  | expression (e : Expr)
  /-- An operand of a level; behind the levels of operators lie operators in front of an operand. -/
  | operand (level : Nat) (e : Expr)
  /-- A primary expression with calls and properties. -/
  | application (e : Expr)
  /-- A primary expression with properties. -/
  | callee (e : Expr)
  /-- A property of an object. -/
  | property (object e : Expr)
  | primary (e : Expr)
  /-- Arguments between their parentheses. -/
  | arguments (es : List Expr)

/-- The words of the forms. -/
inductive Derives : Form → List Lexeme → Prop
  | plain {e : Expr} {w : List Lexeme} (h : Derives (.operand 0 e) w) : Derives (.expression e) w
  | choice {condition t f : Expr} {u v w : List Lexeme} (hc : Derives (.operand 0 condition) u)
    (ht : Derives (.expression t) v) (hf : Derives (.expression f) w) :
    Derives (.expression (.conditional condition t f))
      (u ++ .symbol .question :: (v ++ .symbol .colon :: w))
  | tighter {level : Nat} {e : Expr} {w : List Lexeme} (hl : level < BinaryOp.levels)
    (h : Derives (.operand (level + 1) e) w) : Derives (.operand level e) w
  | joined {s : Symbol} {op : BinaryOp} {lhs rhs : Expr} {u v : List Lexeme}
    (hop : BinaryOp.ofSymbol? s = some op) (hlhs : Derives (.operand op.level lhs) u)
    (hrhs : Derives (.operand (op.level + 1) rhs) v) :
    Derives (.operand op.level (.binary op lhs rhs)) (u ++ .symbol s :: v)
  | signed {s : Symbol} {op : UnaryOp} {e : Expr} {w : List Lexeme}
    (hop : UnaryOp.ofSymbol? s = some op) (h : Derives (.operand BinaryOp.levels e) w) :
    Derives (.operand BinaryOp.levels (.ofUnary op e)) (.symbol s :: w)
  | unsigned {e : Expr} {w : List Lexeme} (h : Derives (.application e) w) :
    Derives (.operand BinaryOp.levels e) w
  | alone {e : Expr} {w : List Lexeme} (h : Derives (.primary e) w) : Derives (.application e) w
  | called {head : Expr} {args : List Expr} {u v : List Lexeme}
    (h : Derives (.application head) u) (ha : Derives (.arguments args) v) :
    Derives (.application (.call head args))
      (u ++ .symbol .leftParen :: (v ++ [.symbol .rightParen]))
  | selected {object e : Expr} {u v : List Lexeme} (h : Derives (.application object) u)
    (hp : Derives (.property object e) v) : Derives (.application e) (u ++ v)
  | calleeAlone {e : Expr} {w : List Lexeme} (h : Derives (.primary e) w) : Derives (.callee e) w
  | calleeSelected {object e : Expr} {u v : List Lexeme} (h : Derives (.callee object) u)
    (hp : Derives (.property object e) v) : Derives (.callee e) (u ++ v)
  | member {object : Expr} {name : String} :
    Derives (.property object (.member object name)) [.symbol .dot, .identifier name]
  | index {object key : Expr} {w : List Lexeme} (h : Derives (.expression key) w) :
    Derives (.property object (.index object key))
      (.symbol .leftBracket :: (w ++ [.symbol .rightBracket]))
  | group {e : Expr} {w : List Lexeme} (h : Derives (.expression e) w) :
    Derives (.primary e) (.symbol .leftParen :: (w ++ [.symbol .rightParen]))
  | number {digits : String} {value : Int64} (hv : numeralValue? digits.toList = some value) :
    Derives (.primary (.int value)) [.number digits]
  | text {contents : String} : Derives (.primary (.text contents)) [.text contents]
  | trueWord : Derives (.primary (.bool true)) [.identifier "true"]
  | falseWord : Derives (.primary (.bool false)) [.identifier "false"]
  | ident {name : String} (hk : isKeyword name = false) :
    Derives (.primary (.ident name)) [.identifier name]
  | construction {callee : Expr} {args : List Expr} {u v : List Lexeme}
    (hc : Derives (.callee callee) u) (ha : Derives (.arguments args) v) :
    Derives (.primary (.construct callee args))
      (.identifier "new" :: (u ++ .symbol .leftParen :: (v ++ [.symbol .rightParen])))
  | noArguments : Derives (.arguments []) []
  | lastArgument {e : Expr} {w : List Lexeme} (h : Derives (.expression e) w) :
    Derives (.arguments [e]) w
  | moreArguments {e : Expr} {es : List Expr} {u v : List Lexeme} (hne : es ≠ [])
    (h : Derives (.expression e) u) (hs : Derives (.arguments es) v) :
    Derives (.arguments (e :: es)) (u ++ .symbol .comma :: v)

/-! ## What is read is derived -/

/-- The phrase derives the word. A chain derives what extends the words of its left end. -/
def Phrase.Derives (w : List Lexeme) : Phrase → Prop
  | expression e => Isa16.Derives (.expression e) w
  | binary level e => level ≤ BinaryOp.levels → Isa16.Derives (.operand level e) w
  | binaryChain level lhs _ e => level < BinaryOp.levels →
    ∀ w₀, Isa16.Derives (.operand level lhs) w₀ → Isa16.Derives (.operand level e) (w₀ ++ w)
  | unary e => Isa16.Derives (.operand BinaryOp.levels e) w
  | application e => Isa16.Derives (.application e) w
  | applicationChain head _ e =>
    ∀ w₀, Isa16.Derives (.application head) w₀ → Isa16.Derives (.application e) (w₀ ++ w)
  | property object result => ∀ e ∈ result, Isa16.Derives (.property object e) w
  | primary e => Isa16.Derives (.primary e) w
  | construction e => Isa16.Derives (.primary e) (.identifier "new" :: w)
  | constructionChain callee _ e => ∀ w₀, Isa16.Derives (.callee callee) w₀ →
    Isa16.Derives (.primary e) (.identifier "new" :: (w₀ ++ w))
  | arguments es => ∃ v, w = v ++ [.symbol .rightParen] ∧ Isa16.Derives (.arguments es) v
  | argumentsAfter es =>
    es ≠ [] ∧ ∃ v, w = v ++ [.symbol .rightParen] ∧ Isa16.Derives (.arguments es) v
  | statements .. | statement _ | statementBody _ | conditionalStatement _ | branch _ => True

/-- **What is read is derived.** -/
theorem derives_of_parses {φ : Phrase} {m : Nat} {u v : List Lexeme} (h : Parses φ m u v) :
    ∃ w, u = w ++ v ∧ φ.Derives w := by
  have hs := h.suffix
  induction h with
  | choice hc ht hf ihc iht ihf =>
    obtain ⟨w₁, rfl, h₁⟩ := ihc hc.suffix
    obtain ⟨w₂, rfl, h₂⟩ := iht ht.suffix
    obtain ⟨w₃, rfl, h₃⟩ := ihf hf.suffix
    exact ⟨_, by simp, .choice (h₁ (Nat.zero_le _)) h₂ h₃⟩
  | plain h _ ih =>
    obtain ⟨w, rfl, hw⟩ := ih h.suffix
    exact ⟨w, rfl, .plain (hw (Nat.zero_le _))⟩
  | level hl hf h ihf ih =>
    obtain ⟨w₁, rfl, h₁⟩ := ihf hf.suffix
    obtain ⟨w₂, rfl, h₂⟩ := ih h.suffix
    exact ⟨w₁ ++ w₂, by simp, fun _ => h₂ hl w₁ (.tighter hl (h₁ hl))⟩
  | noLevel hl h ih =>
    obtain ⟨w, rfl, hw⟩ := ih h.suffix
    refine ⟨w, rfl, fun hle => ?_⟩
    rw [Nat.le_antisymm hle (Nat.le_of_not_lt hl)]
    exact hw
  | @binaryStep _ _ s _ _ _ _ _ _ _ _ _ hop hr h ihr ih =>
    obtain ⟨w₁, rfl, h₁⟩ := ihr hr.suffix
    obtain ⟨w₂, rfl, h₂⟩ := ih h.suffix
    obtain ⟨hsymbol, rfl⟩ := Reader.infixOf?_eq_some.mp hop
    refine ⟨.symbol s :: (w₁ ++ w₂), by simp, fun hl w₀ h₀ => ?_⟩
    have hjoined := h₂ hl _ (.joined hsymbol h₀ (h₁ hl))
    simpa using hjoined
  | binaryEnd => exact ⟨[], rfl, fun _ w₀ h₀ => by rwa [List.append_nil]⟩
  | unaryStep hop h ih =>
    obtain ⟨w, rfl, hw⟩ := ih h.suffix
    exact ⟨_, rfl, .signed hop hw⟩
  | unaryEnd _ h ih =>
    obtain ⟨w, rfl, hw⟩ := ih h.suffix
    exact ⟨w, rfl, .unsigned hw⟩
  | application hp h ihp ih =>
    obtain ⟨w₁, rfl, h₁⟩ := ihp hp.suffix
    obtain ⟨w₂, rfl, h₂⟩ := ih h.suffix
    exact ⟨w₁ ++ w₂, by simp, h₂ w₁ (.alone h₁)⟩
  | callStep ha h iha ih =>
    obtain ⟨_, rfl, w₁, rfl, h₁⟩ := iha ha.suffix
    obtain ⟨w₂, rfl, h₂⟩ := ih h.suffix
    refine ⟨.symbol .leftParen :: (w₁ ++ [.symbol .rightParen] ++ w₂), by simp, fun w₀ h₀ => ?_⟩
    have hcalled := h₂ _ (.called h₀ h₁)
    simpa using hcalled
  | propertyStep hp h ihp ih =>
    obtain ⟨w₁, rfl, h₁⟩ := ihp hp.suffix
    obtain ⟨w₂, rfl, h₂⟩ := ih h.suffix
    refine ⟨w₁ ++ w₂, by simp, fun w₀ h₀ => ?_⟩
    have hselected := h₂ _ (.selected h₀ (h₁ _ rfl))
    rwa [List.append_assoc] at hselected
  | applicationEnd => exact ⟨[], rfl, fun w₀ h₀ => by rwa [List.append_nil]⟩
  | member => exact ⟨[_, _], rfl, fun e he => by cases he; exact .member⟩
  | index h ih =>
    obtain ⟨w, rfl, hw⟩ := ih h.suffix
    refine ⟨.symbol .leftBracket :: (w ++ [.symbol .rightBracket]), by simp, fun e he => ?_⟩
    cases he
    exact .index hw
  | noProperty => exact ⟨[], rfl, fun e he => by cases he⟩
  | group h ih =>
    obtain ⟨w, rfl, hw⟩ := ih h.suffix
    exact ⟨_, by simp, .group hw⟩
  | number hv => exact ⟨[_], rfl, .number hv⟩
  | text => exact ⟨[_], rfl, .text⟩
  | trueWord => exact ⟨[_], rfl, .trueWord⟩
  | falseWord => exact ⟨[_], rfl, .falseWord⟩
  | new h ih =>
    obtain ⟨w, rfl, hw⟩ := ih h.suffix
    exact ⟨_, rfl, hw⟩
  | ident hk => exact ⟨[_], rfl, .ident hk⟩
  | construction hp h ihp ih =>
    obtain ⟨w₁, rfl, h₁⟩ := ihp hp.suffix
    obtain ⟨w₂, rfl, h₂⟩ := ih h.suffix
    exact ⟨w₁ ++ w₂, by simp, h₂ w₁ (.calleeAlone h₁)⟩
  | constructionStep hp h ihp ih =>
    obtain ⟨w₁, rfl, h₁⟩ := ihp hp.suffix
    obtain ⟨w₂, rfl, h₂⟩ := ih h.suffix
    refine ⟨w₁ ++ w₂, by simp, fun w₀ h₀ => ?_⟩
    have hselected := h₂ _ (.calleeSelected h₀ (h₁ _ rfl))
    rwa [List.append_assoc] at hselected
  | constructionEnd ha iha =>
    obtain ⟨_, rfl, w, rfl, hw⟩ := iha ha.suffix
    exact ⟨.symbol .leftParen :: (w ++ [.symbol .rightParen]), by simp, fun w₀ h₀ =>
      .construction h₀ hw⟩
  | noArguments => exact ⟨[_], rfl, [], rfl, .noArguments⟩
  | someArguments _ h ih =>
    obtain ⟨w, rfl, -, hw⟩ := ih h.suffix
    exact ⟨w, rfl, hw⟩
  | moreArguments ha h iha ih =>
    obtain ⟨w₁, rfl, h₁⟩ := iha ha.suffix
    obtain ⟨_, rfl, hne, w₂, rfl, h₂⟩ := ih h.suffix
    exact ⟨(w₁ ++ .symbol .comma :: w₂) ++ [.symbol .rightParen], by simp, List.cons_ne_nil _ _, _,
      rfl, .moreArguments hne h₁ h₂⟩
  | lastArgument ha iha =>
    obtain ⟨w, rfl, hw⟩ := iha ha.suffix
    exact ⟨w ++ [.symbol .rightParen], by simp, List.cons_ne_nil _ _, w, rfl, .lastArgument hw⟩
  | _ =>
    obtain ⟨w, hw⟩ := hs
    exact ⟨w, hw.symm, trivial⟩

/-! ## What a word begins with -/

/-- An expression may begin with the lexeme. -/
def Lexeme.Opens : Lexeme → Prop
  | identifier name => name ≠ "if" ∧ name ≠ "else"
  | number _ | text _ => True
  | symbol s => s = .leftParen ∨ (UnaryOp.ofSymbol? s).isSome = true

theorem Lexeme.Opens.ne {l : Lexeme} (h : l.Opens) : l ≠ .symbol .rightParen ∧
    l ≠ .symbol .semicolon ∧ l ≠ .identifier "if" := by
  refine ⟨?_, ?_, ?_⟩ <;> rintro rfl <;> simp [Opens, UnaryOp.ofSymbol?] at h

/-- What a word of the form begins with. -/
def Form.Front (w : List Lexeme) : Form → Prop
  | expression _ | operand .. => ∃ l v, w = l :: v ∧ l.Opens
  | application _ | callee _ | primary _ =>
    ∃ l v, w = l :: v ∧ l.Opens ∧ Reader.unaryOf? (some l) = none
  | arguments es => es = [] ∨ ∃ l v, w = l :: v ∧ l.Opens
  | property .. => True

theorem Derives.front {F : Form} {w : List Lexeme} (h : Derives F w) : F.Front w := by
  induction h with
  | plain _ ih | tighter _ _ ih | alone _ ih | calleeAlone _ ih => exact ih
  | choice _ _ _ ih _ _ | joined _ _ _ ih _ =>
    obtain ⟨l, v, rfl, hl⟩ := ih
    exact ⟨l, _, rfl, hl⟩
  | signed hop _ _ => exact ⟨_, _, rfl, Or.inr (Option.isSome_of_eq_some hop)⟩
  | unsigned _ ih =>
    obtain ⟨l, v, rfl, hl, -⟩ := ih
    exact ⟨l, v, rfl, hl⟩
  | called _ _ ih _ | selected _ _ ih _ | calleeSelected _ _ ih _ =>
    obtain ⟨l, v, rfl, hl⟩ := ih
    exact ⟨l, _, rfl, hl⟩
  | member | index => trivial
  | group => exact ⟨_, _, rfl, Or.inl rfl, rfl⟩
  | number | text => exact ⟨_, _, rfl, trivial, rfl⟩
  | trueWord | falseWord | construction => exact ⟨_, _, rfl, by simp [Lexeme.Opens], rfl⟩
  | ident hk =>
    obtain ⟨-, -, -, hif⟩ := ne_of_isKeyword hk
    exact ⟨_, _, rfl, not_or.mp hif, rfl⟩
  | noArguments => exact Or.inl rfl
  | lastArgument _ ih => exact Or.inr ih
  | moreArguments _ _ _ ih _ =>
    obtain ⟨l, v, rfl, hl⟩ := ih
    exact Or.inr ⟨l, _, rfl, hl⟩

theorem Derives.head?_ne {es : List Expr} {w rest : List Lexeme} (h : Derives (.arguments es) w)
    (hne : es ≠ []) : (w ++ rest).head? ≠ some (.symbol .rightParen) := by
  obtain hes | ⟨l, v, rfl, hl⟩ := h.front
  · exact absurd hes hne
  · simpa using hl.ne.1

/-! ## What is derived is read -/

/-- Words of the form are read, in front of what goes on with none of them. Behind a left-recursive
form, a chain goes on. -/
def Form.IsRead (w : List Lexeme) : Form → Prop
  | expression e => ∀ rest : List Lexeme, Stops 0 rest.head? →
    rest.head? ≠ some (.symbol .question) → ∃ m, Parses (.expression e) m (w ++ rest) rest
  | operand level e =>
    (level < BinaryOp.levels → ∃ held, ∀ (rest v : List Lexeme) (e' : Expr) (n : Nat),
      Stops (level + 1) rest.head? → Parses (.binaryChain level e held e') n rest v →
        ∃ m, Parses (.binary level e') m (w ++ rest) v) ∧
    (level = BinaryOp.levels → ∀ rest : List Lexeme, Stops level rest.head? →
      ∃ m, Parses (.unary e) m (w ++ rest) rest)
  | application e => ∃ held, ∀ (rest v : List Lexeme) (e' : Expr) (n : Nat),
    Parses (.applicationChain e held e') n rest v → ∃ m, Parses (.application e') m (w ++ rest) v
  | callee e => ∃ held, ∀ (rest v : List Lexeme) (e' : Expr) (n : Nat),
    Parses (.constructionChain e held e') n rest v → ∃ m, Parses (.construction e') m (w ++ rest) v
  | property object e => ∀ rest, ∃ m, Parses (.property object (some e)) m (w ++ rest) rest
  | primary e => ∀ rest, ∃ m, Parses (.primary e) m (w ++ rest) rest
  | arguments es =>
    (es = [] → w = []) ∧ (es ≠ [] → ∀ rest,
      ∃ m, Parses (.argumentsAfter es) m (w ++ .symbol .rightParen :: rest) rest)

variable {w rest : List Lexeme}

theorem Form.IsRead.binary {level : Nat} {e : Expr} (h : (Form.operand level e).IsRead w)
    (hl : level ≤ BinaryOp.levels) (hstop : Stops level rest.head?) :
    ∃ m, Parses (.binary level e) m (w ++ rest) rest := by
  rcases Nat.lt_or_eq_of_le hl with hlt | heq
  · obtain ⟨held, hchain⟩ := h.1 hlt
    exact hchain rest rest e 0 (hstop.mono level.le_succ) (.binaryEnd (hstop.1 level le_rfl))
  · obtain ⟨m, hunary⟩ := h.2 heq rest hstop
    exact ⟨m, .noLevel heq.not_lt hunary⟩

theorem Form.IsRead.arguments {es : List Expr} (h : (Form.arguments es).IsRead w)
    (hd : Derives (.arguments es) w) (rest : List Lexeme) :
    ∃ m, Parses (.arguments es) m (w ++ .symbol .rightParen :: rest) rest := by
  by_cases hes : es = []
  · rw [h.1 hes, hes]
    exact ⟨0, .noArguments⟩
  · obtain ⟨m, hm⟩ := h.2 hes rest
    exact ⟨m, .someArguments (hd.head?_ne hes) hm⟩

theorem Form.isRead_choice {condition t f : Expr} {w₁ w₂ w₃ : List Lexeme}
    (hc : (Form.operand 0 condition).IsRead w₁) (ht : (Form.expression t).IsRead w₂)
    (hf : (Form.expression f).IsRead w₃) : (Form.expression (.conditional condition t f)).IsRead
      (w₁ ++ .symbol .question :: (w₂ ++ .symbol .colon :: w₃)) := by
  intro rest hstop hq
  obtain ⟨m₃, h₃⟩ := hf rest hstop hq
  obtain ⟨m₂, h₂⟩ := ht (.symbol .colon :: _) (stops_cons rfl (by decide) 0 _) (by simp)
  obtain ⟨m₁, h₁⟩ := hc.binary (Nat.zero_le _) (stops_cons (s := .question) rfl (by decide) 0 _)
  have hchoice := Parses.choice h₁ h₂ h₃
  exact ⟨_, by simpa using hchoice⟩

theorem Form.isRead_tighter {level : Nat} {e : Expr} (hl : level < BinaryOp.levels)
    (h : (Form.operand (level + 1) e).IsRead w) : (Form.operand level e).IsRead w := by
  refine ⟨fun _ => ⟨0, fun rest v e' n hstop hchain => ?_⟩, fun heq => absurd hl heq.not_lt⟩
  obtain ⟨m, hm⟩ := h.binary hl hstop
  exact ⟨_, .level hl hm hchain⟩

theorem Form.isRead_joined {s : Symbol} {op : BinaryOp} {lhs rhs : Expr} {w₁ w₂ : List Lexeme}
    (hop : BinaryOp.ofSymbol? s = some op) (hlhs : (Form.operand op.level lhs).IsRead w₁)
    (hrhs : (Form.operand (op.level + 1) rhs).IsRead w₂) :
    (Form.operand op.level (.binary op lhs rhs)).IsRead (w₁ ++ .symbol s :: w₂) := by
  have hl := op.level_lt_levels
  obtain ⟨held, hleft⟩ := hlhs.1 hl
  refine ⟨fun _ => ⟨held + 1, fun rest v e' n hstop hchain => ?_⟩, fun heq => absurd hl heq.not_lt⟩
  obtain ⟨m, hm⟩ := hrhs.binary hl hstop
  obtain ⟨m', hm'⟩ := hleft (.symbol s :: (w₂ ++ rest)) v e' _ (stops_of_ofSymbol? hop)
    (.binaryStep (Reader.infixOf?_eq_some.mpr ⟨hop, rfl⟩) hm hchain)
  exact ⟨m', by simpa using hm'⟩

theorem Form.isRead_signed {s : Symbol} {op : UnaryOp} {e : Expr}
    (hop : UnaryOp.ofSymbol? s = some op) (h : (Form.operand BinaryOp.levels e).IsRead w) :
    (Form.operand BinaryOp.levels (.ofUnary op e)).IsRead (.symbol s :: w) := by
  refine ⟨fun hlt => absurd hlt (Nat.lt_irrefl _), fun _ rest hstop => ?_⟩
  obtain ⟨m, hm⟩ := h.2 rfl rest hstop
  exact ⟨_, .unaryStep hop hm⟩

theorem Form.isRead_unsigned {e : Expr} (hd : Derives (.application e) w)
    (h : (Form.application e).IsRead w) : (Form.operand BinaryOp.levels e).IsRead w := by
  refine ⟨fun hlt => absurd hlt (Nat.lt_irrefl _), fun _ rest hstop => ?_⟩
  obtain ⟨held, hgo⟩ := h
  obtain ⟨-, hparen, hdot, hbracket⟩ := hstop
  obtain ⟨m, hm⟩ := hgo rest rest e 0 (.applicationEnd hparen (.noProperty hdot hbracket))
  obtain ⟨l, v, rfl, -, hl⟩ := hd.front
  exact ⟨m, .unaryEnd hl hm⟩

theorem Form.isRead_called {head : Expr} {args : List Expr} {w₁ w₂ : List Lexeme}
    (h : (Form.application head).IsRead w₁) (hd : Derives (.arguments args) w₂)
    (ha : (Form.arguments args).IsRead w₂) : (Form.application (.call head args)).IsRead
      (w₁ ++ .symbol .leftParen :: (w₂ ++ [.symbol .rightParen])) := by
  obtain ⟨held, hgo⟩ := h
  refine ⟨held + 1, fun rest v e' n hchain => ?_⟩
  obtain ⟨m, hm⟩ := ha.arguments hd rest
  obtain ⟨m', hm'⟩ := hgo _ v e' _ (.callStep hm hchain)
  exact ⟨m', by simpa using hm'⟩

theorem Form.isRead_selected {object e : Expr} {w₁ w₂ : List Lexeme}
    (h : (Form.application object).IsRead w₁) (hp : (Form.property object e).IsRead w₂) :
    (Form.application e).IsRead (w₁ ++ w₂) := by
  obtain ⟨held, hgo⟩ := h
  refine ⟨held + 1, fun rest v e' n hchain => ?_⟩
  obtain ⟨m, hm⟩ := hp rest
  obtain ⟨m', hm'⟩ := hgo _ v e' _ (.propertyStep hm hchain)
  exact ⟨m', by simpa using hm'⟩

theorem Form.isRead_calleeSelected {object e : Expr} {w₁ w₂ : List Lexeme}
    (h : (Form.callee object).IsRead w₁) (hp : (Form.property object e).IsRead w₂) :
    (Form.callee e).IsRead (w₁ ++ w₂) := by
  obtain ⟨held, hgo⟩ := h
  refine ⟨held + 1, fun rest v e' n hchain => ?_⟩
  obtain ⟨m, hm⟩ := hp rest
  obtain ⟨m', hm'⟩ := hgo _ v e' _ (.constructionStep hm hchain)
  exact ⟨m', by simpa using hm'⟩

theorem Form.isRead_index {object key : Expr} (h : (Form.expression key).IsRead w) :
    (Form.property object (.index object key)).IsRead
      (.symbol .leftBracket :: (w ++ [.symbol .rightBracket])) := by
  intro rest
  obtain ⟨m, hm⟩ := h (.symbol .rightBracket :: rest) (stops_cons rfl (by decide) 0 _) (by simp)
  have hindex : Parses (.property object (some (.index object key))) m _ rest := .index hm
  exact ⟨m, by simpa using hindex⟩

theorem Form.isRead_group {e : Expr} (h : (Form.expression e).IsRead w) :
    (Form.primary e).IsRead (.symbol .leftParen :: (w ++ [.symbol .rightParen])) := by
  intro rest
  obtain ⟨m, hm⟩ := h (.symbol .rightParen :: rest) (stops_rightParen 0 rest) (by simp)
  have hgroup := Parses.group hm
  exact ⟨m, by simpa using hgroup⟩

theorem Form.isRead_construction {callee : Expr} {args : List Expr} {w₁ w₂ : List Lexeme}
    (hc : (Form.callee callee).IsRead w₁) (hd : Derives (.arguments args) w₂)
    (ha : (Form.arguments args).IsRead w₂) : (Form.primary (.construct callee args)).IsRead
      (.identifier "new" :: (w₁ ++ .symbol .leftParen :: (w₂ ++ [.symbol .rightParen]))) := by
  intro rest
  obtain ⟨held, hgo⟩ := hc
  obtain ⟨m, hm⟩ := ha.arguments hd rest
  obtain ⟨m', hm'⟩ := hgo _ rest _ _ (.constructionEnd hm)
  have hnew := Parses.new hm'
  exact ⟨m', by simpa using hnew⟩

theorem Form.isRead_lastArgument {e : Expr} (h : (Form.expression e).IsRead w) :
    (Form.arguments [e]).IsRead w := by
  refine ⟨fun hnil => absurd hnil (List.cons_ne_nil _ _), fun _ rest => ?_⟩
  obtain ⟨m, hm⟩ := h (.symbol .rightParen :: rest) (stops_rightParen 0 rest) (by simp)
  exact ⟨m, .lastArgument hm⟩

theorem Form.isRead_moreArguments {e : Expr} {es : List Expr} {w₁ w₂ : List Lexeme}
    (hne : es ≠ []) (h : (Form.expression e).IsRead w₁) (hs : (Form.arguments es).IsRead w₂) :
    (Form.arguments (e :: es)).IsRead (w₁ ++ .symbol .comma :: w₂) := by
  refine ⟨fun hnil => absurd hnil (List.cons_ne_nil _ _), fun _ rest => ?_⟩
  obtain ⟨m, hm⟩ := hs.2 hne rest
  obtain ⟨m', hm'⟩ := h (.symbol .comma :: _) (stops_cons rfl (by decide) 0 _) (by simp)
  have hmore := Parses.moreArguments hm' hm
  exact ⟨_, by simpa using hmore⟩

/-- **What is derived is read.** -/
theorem reads_of_derives {F : Form} (h : Derives F w) : F.IsRead w := by
  induction h with
  | plain _ ih =>
    intro rest hstop hq
    obtain ⟨m, hm⟩ := ih.binary (Nat.zero_le _) hstop
    exact ⟨_, .plain hm hq⟩
  | choice _ _ _ ihc iht ihf => exact Form.isRead_choice ihc iht ihf
  | tighter hl _ ih => exact Form.isRead_tighter hl ih
  | joined hop _ _ ihl ihr => exact Form.isRead_joined hop ihl ihr
  | signed hop _ ih => exact Form.isRead_signed hop ih
  | unsigned hd ih => exact Form.isRead_unsigned hd ih
  | alone _ ih =>
    refine ⟨0, fun rest v e' n hchain => ?_⟩
    obtain ⟨m, hm⟩ := ih rest
    exact ⟨_, .application hm hchain⟩
  | called _ hd ih iha => exact Form.isRead_called ih hd iha
  | selected _ _ ih ihp => exact Form.isRead_selected ih ihp
  | calleeAlone _ ih =>
    refine ⟨1, fun rest v e' n hchain => ?_⟩
    obtain ⟨m, hm⟩ := ih rest
    exact ⟨_, .construction hm hchain⟩
  | calleeSelected _ _ ih ihp => exact Form.isRead_calleeSelected ih ihp
  | member => exact fun rest => ⟨0, .member⟩
  | index _ ih => exact Form.isRead_index ih
  | group _ ih => exact Form.isRead_group ih
  | number hv => exact fun rest => ⟨0, .number hv⟩
  | text => exact fun rest => ⟨0, .text⟩
  | trueWord => exact fun rest => ⟨0, .trueWord⟩
  | falseWord => exact fun rest => ⟨0, .falseWord⟩
  | ident hk => exact fun rest => ⟨0, .ident hk⟩
  | construction _ hd ihc iha => exact Form.isRead_construction ihc hd iha
  | noArguments => exact ⟨fun _ => rfl, fun hne => absurd rfl hne⟩
  | lastArgument _ ih => exact Form.isRead_lastArgument ih
  | moreArguments hne _ _ ih ihs => exact Form.isRead_moreArguments hne ih ihs

/-! ## Whole texts -/

/-- The separator of statements. -/
abbrev semicolon : Lexeme :=
  .symbol .semicolon

/-- Lexemes without the separators at their two ends. -/
def trimmed (ls : List Lexeme) : List Lexeme :=
  (ls.dropWhile (· = semicolon)).rdropWhile (· = semicolon)

theorem exists_eq_trimmed (ls : List Lexeme) : ∃ i j,
    ls = List.replicate i semicolon ++ (trimmed ls ++ List.replicate j semicolon) := by
  obtain ⟨i, hi⟩ : ∃ i, ls.takeWhile (· = semicolon) = List.replicate i semicolon :=
    ⟨_, List.eq_replicate_of_mem fun l hl => by simpa using List.mem_takeWhile_imp hl⟩
  obtain ⟨j, hj⟩ : ∃ j, (ls.dropWhile (· = semicolon)).rtakeWhile (· = semicolon) =
      List.replicate j semicolon :=
    ⟨_, List.eq_replicate_of_mem fun l hl => by simpa using List.mem_rtakeWhile_imp hl⟩
  refine ⟨i, j, ?_⟩
  rw [← hi, ← hj, trimmed, List.rdropWhile_append_rtakeWhile, List.takeWhile_append_dropWhile]

theorem dropWhile_replicate_append {w : List Lexeme} (h : w.head? ≠ some semicolon) (i : Nat) :
    (List.replicate i semicolon ++ w).dropWhile (· = semicolon) = w := by
  rw [List.dropWhile_append_of_pos (by simp)]
  cases w with
  | nil => rfl
  | cons l w => rw [List.dropWhile_cons_of_neg (by simpa using h)]

theorem trimmed_eq {w : List Lexeme} (hne : w ≠ []) (h : semicolon ∉ w) (i j : Nat) :
    trimmed (List.replicate i semicolon ++ (w ++ List.replicate j semicolon)) = w := by
  have hfront : (w ++ List.replicate j semicolon).head? ≠ some semicolon := by
    rw [List.head?_append_of_ne_nil _ hne]
    exact fun heq => h (List.mem_of_head? heq)
  have hback : w.reverse.head? ≠ some semicolon := fun heq =>
    h (List.mem_reverse.mp (List.mem_of_head? heq))
  rw [trimmed, dropWhile_replicate_append hfront, List.rdropWhile, List.reverse_append,
    List.reverse_replicate, dropWhile_replicate_append hback, List.reverse_reverse]

theorem Derives.symbol_notMem {F : Form} {w : List Lexeme} (h : Derives F w) {s : Symbol}
    (hs : s = .semicolon ∨ s = .rightBrace) : .symbol s ∉ w := by
  induction h with
  | joined hop | signed hop => grind [BinaryOp.ofSymbol?, UnaryOp.ofSymbol?]
  | _ => grind

theorem parses_replicate_append {ss : List Stmt} {m : Nat} {u v : List Lexeme}
    (h : Parses (.statements none ss) m u v) (i : Nat) :
    Parses (.statements none ss) m (List.replicate i semicolon ++ u) v := by
  induction i with
  | zero => exact h
  | succ i ih => exact .statementsSkip (by simp) ih

theorem parses_replicate (j : Nat) :
    Parses (.statements none []) 0 (List.replicate j semicolon) [] := by
  have h := parses_replicate_append (.statementsEnd (u := []) rfl) j
  rwa [List.append_nil] at h

theorem parses_statement {s : Stmt} {m j : Nat} {u : List Lexeme} (hs : s.isConditional = false)
    (hnil : u.head? ≠ none) (hsemi : u.head? ≠ some semicolon)
    (h : Parses (.statement s) m u (List.replicate j semicolon)) :
    Parses (.statements none [s]) m u [] := by
  obtain ⟨v, hsep, hrest⟩ : ∃ v, Separated none s (List.replicate j semicolon) v ∧
      Parses (.statements none []) 0 v [] := by
    cases j with
    | zero => exact ⟨[], .closed hs rfl, parses_replicate 0⟩
    | succ j => exact ⟨_, .semicolon hs (by simp), parses_replicate j⟩
  have hstatements := Parses.statementsCons hnil hsemi h hsep hrest
  rwa [Nat.max_zero] at hstatements

theorem exists_eq_replicate {φ : Phrase} {m : Nat} {u v : List Lexeme} (h : Parses φ m u v)
    (hφ : φ = .statements none []) (hv : v = []) : ∃ j, u = List.replicate j semicolon := by
  induction h with
  | statementsEnd => exact ⟨0, hv⟩
  | statementsSkip _ _ ih =>
    cases hφ
    obtain ⟨j, rfl⟩ := ih rfl hv
    exact ⟨j + 1, rfl⟩
  | _ => cases hφ

theorem exists_derives_of_parses {φ : Phrase} {m : Nat} {u v : List Lexeme} (h : Parses φ m u v)
    {e : Expr} (hφ : φ = .statements none [.expr e]) (hv : v = []) : ∃ i w j,
      u = List.replicate i semicolon ++ (w ++ List.replicate j semicolon) ∧
        Derives (.expression e) w := by
  induction h with
  | statementsSkip _ _ ih =>
    cases hφ
    obtain ⟨i, w, j, rfl, hw⟩ := ih rfl hv
    exact ⟨i + 1, w, j, rfl, hw⟩
  | @statementsCons _ _ _ _ _ _ u₁ _ _ _ _ hs hsep h =>
    cases hφ
    obtain ⟨j, rfl⟩ := exists_eq_replicate h rfl hv
    obtain ⟨k, hk⟩ : ∃ k, u₁ = List.replicate k semicolon := by
      cases hsep with
      | conditional | closed => exact ⟨j, rfl⟩
      | semicolon => exact ⟨j + 1, rfl⟩
    cases hs with
    | statement hbody =>
      cases hbody with
      | conditionalBody hcond => cases hcond
      | expressionBody hif he =>
        obtain ⟨w, rfl, hw⟩ := derives_of_parses he
        exact ⟨0, w, k, by rw [hk, List.replicate_zero, List.nil_append], hw⟩
  | _ => cases hφ

theorem stops_replicate (j : Nat) : Stops 0 (List.replicate j semicolon).head? := by
  cases j with
  | zero => exact stops_none 0
  | succ j => exact stops_cons rfl (by decide) 0 _

theorem head?_replicate_ne {l : Lexeme} (hl : l ≠ semicolon) (j : Nat) :
    (List.replicate j semicolon).head? ≠ some l := by
  cases j with
  | zero => simp
  | succ j => simpa [List.replicate_succ] using hl.symm

theorem parses_of_derives {e : Expr} {w : List Lexeme} (h : Derives (.expression e) w) (i j : Nat) :
    ∃ m, Parses (.statements none [.expr e]) m
      (List.replicate i semicolon ++ (w ++ List.replicate j semicolon)) [] := by
  obtain ⟨m, hm⟩ := reads_of_derives h _ (stops_replicate j) (head?_replicate_ne (by simp) j)
  obtain ⟨l, v, rfl, hl⟩ := h.front
  obtain ⟨-, hsemi, hif⟩ := hl.ne
  have hbody : Parses (.statementBody (.expr e)) m _ (List.replicate j semicolon) :=
    .expressionBody (by simpa using hif) hm (head?_replicate_ne (by simp) j)
  exact ⟨1 + m, parses_replicate_append
    (parses_statement rfl (by simp) (by simpa using hsemi) (.statement hbody)) i⟩

theorem Derives.unique {e e' : Expr} {w : List Lexeme} (h : Derives (.expression e) w)
    (h' : Derives (.expression e') w) : e = e' := by
  obtain ⟨m, hm⟩ := parses_of_derives h 0 0
  obtain ⟨m', hm'⟩ := parses_of_derives h' 0 0
  obtain ⟨hφ, -⟩ := hm.unique hm' rfl
  cases hφ
  rfl

/-- **A text is read as an expression exactly if its lexemes derive it**, unless it is nested too
deeply, and no word derives two expressions. -/
theorem parse_expression_iff_derives :
    (∀ source e, parse source = .ok [.expr e] →
      ∃ ls, (scan source).Yields ls ∧ Derives (.expression e) (trimmed ls)) ∧
    (∀ source ls e, (scan source).Yields ls → Derives (.expression e) (trimmed ls) →
      parse source = .ok [.expr e] ∨
        ∃ p, parse source = .error (.grammatical p .nestedTooDeeply)) ∧
    ∀ w e e', Derives (.expression e) w → Derives (.expression e') w → e = e' := by
  refine ⟨fun source e h => ?_, fun source ls e hy h => ?_, fun w e e' h h' => h.unique h'⟩
  · obtain ⟨ls, hy, m, -, hparses⟩ := parse_eq_ok_iff_parses.mp h
    obtain ⟨i, w, j, rfl, hw⟩ := exists_derives_of_parses hparses rfl rfl
    obtain ⟨l, v, rfl, -⟩ := hw.front
    refine ⟨_, hy, ?_⟩
    rwa [trimmed_eq (List.cons_ne_nil l v) (hw.symbol_notMem (Or.inl rfl))]
  · obtain ⟨i, j, hls⟩ := exists_eq_trimmed ls
    obtain ⟨m, hm⟩ := parses_of_derives h i j
    rw [← hls] at hm
    exact parse_eq_ok_or_error hy hm

set_option maxRecDepth 4000 in
/-- Minus folds a literal, and `new` takes the first arguments. -/
theorem derives_folded : ∃ ls, (scan ";-1 + new a.if()[b];").Yields ls ∧
    Derives (.expression (.binary .add (.int (-1))
      (.index (.construct (.member (.ident "a") "if") []) (.ident "b")))) (trimmed ls) :=
  parse_expression_iff_derives.1 ";-1 + new a.if()[b];" _ (by cbv)

end Isa16
