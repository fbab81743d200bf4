import Isa16.Proofs.Program.Rules

/-!
# What is read from tokens

* `Cursor.lexemes`, `Cursor.Spares`: the lexemes that are left at a place, and the levels of nesting
  that may be held there besides those that are.
* `Phrase.Run`: a routine reads a phrase from one place to another.
* `Phrase.Parsed`: the rules read a phrase there, with levels that there are to spare.
* **`parsed_of_run`**: what the routines read, the rules read. One lemma for each routine takes this
  for granted with a smaller allowance.
-/

namespace Isa16

/-! ## Places -/

/-- So many levels may be held besides those that are. -/
@[grind]
def Cursor.Spares (c : Cursor) (m : Nat) : Prop :=
  m = 0 ∨ c.depth + m ≤ maxNesting

namespace Cursor

/-- The next token is the symbol. -/
abbrev AtSymbol (c : Cursor) (s : Symbol) : Prop :=
  c.At (some (.symbol s))

/-- The next token is another one than the symbol. -/
abbrev NotAtSymbol (c : Cursor) (s : Symbol) : Prop :=
  c.NotAt (some (.symbol s))

/-- The next token is the word. -/
abbrev AtWord (c : Cursor) (word : String) : Prop :=
  c.At (some (.identifier word))

/-- The next token is another one than the word. -/
abbrev NotAtWord (c : Cursor) (word : String) : Prop :=
  c.NotAt (some (.identifier word))

/-- The lexemes that are left. -/
def lexemes (c : Cursor) : List Lexeme :=
  c.tokens.map Token.lexeme

@[simp] theorem lexemes_release (c : Cursor) (k : Nat) : (c.release k).lexemes = c.lexemes := rfl

variable {c : Cursor}

/-- A place behind which the text ends has no tokens left. -/
theorem tokens_of_at_none (h : c.At none) : c.tokens = [] := by
  obtain ⟨p, hp⟩ := h
  unfold front? at hp
  split at hp
  · cases hp
  · assumption
  · cases hp

theorem At.lexemes_eq {l : Lexeme} (h : c.At (some l)) : c.lexemes = l :: c.rest.lexemes := by
  obtain ⟨p, hp⟩ := h
  unfold front? at hp
  split at hp
  next t ts heq =>
    cases hp
    simp [lexemes, heq]
  · cases hp
  · cases hp

theorem At.head? {l : Option Lexeme} (h : c.At l) : c.lexemes.head? = l := by
  cases l with
  | none => rw [lexemes, tokens_of_at_none h, List.map_nil, List.head?_nil]
  | some l => rw [h.lexemes_eq, List.head?_cons]

theorem NotAt.head?_ne {l : Option Lexeme} (h : c.NotAt l) : c.lexemes.head? ≠ l := by
  obtain ⟨l', hat, hne⟩ := h
  rwa [hat.head?]

/-- A lexeme behind the next one shows that there is a next one. -/
theorem At.lexemes_of_rest {l : Lexeme} (h : c.rest.At (some l)) :
    ∃ l', c.lexemes = l' :: l :: c.rest.rest.lexemes := by
  have hrest := h.lexemes_eq
  unfold lexemes at hrest ⊢
  cases htokens : c.tokens with
  | nil => simp [htokens] at hrest
  | cons t ts =>
    refine ⟨t.lexeme, ?_⟩
    rw [rest_tokens, htokens, List.tail_cons] at hrest
    rw [List.map_cons, hrest]

end Cursor

/-- A later place of the same text, with so many levels given back. -/
@[grind]
def Cursor.Behind (c' c : Cursor) (levels : Nat) : Prop :=
  c'.depth + levels = c.depth ∧ c'.ending = c.ending

@[grind =] theorem Cursor.rest_ending (c : Cursor) : c.rest.ending = c.ending := rfl
@[grind =] theorem Cursor.deeper_ending (c : Cursor) : c.deeper.ending = c.ending := rfl

@[grind =]
theorem Cursor.release_ending (c : Cursor) (k : Nat) : (c.release k).ending = c.ending := rfl

/-! ## Phrases that are read -/

namespace Phrase

/-- The routine with this allowance reads the phrase from `c` to `c'`. -/
def Run (n : Nat) (φ : Phrase) (c c' : Cursor) : Prop :=
  (φ.production.read n).Gives c φ.result c'

/-- The rules read the phrase from `c` to `c'`, with levels that there are to spare at `c`. -/
def Parsed (φ : Phrase) (c c' : Cursor) : Prop :=
  (∃ m, c.Spares m ∧ Parses φ m c.lexemes c'.lexemes) ∧ c'.Behind c φ.held

/-- Without an allowance nothing is read. -/
theorem not_run_zero (φ : Phrase) {c c' : Cursor} : ¬ φ.Run 0 c c' := by
  unfold Run
  rw [Production.read_zero]
  exact Reader.not_gives_throw

end Phrase

open Reader

theorem separated_of_gives {closing : Option Symbol} {s : Stmt} {c c' : Cursor} {u : Unit}
    (h : Gives (separator closing s) c u c') :
    Separated closing s c.lexemes c'.lexemes ∧ c'.Behind c 0 := by
  unfold separator at h
  cases hs : s.isConditional with
  | true =>
    simp only [hs, if_true] at h
    obtain ⟨-, rfl⟩ := gives_pure.mp h
    exact ⟨.conditional hs, rfl, rfl⟩
  | false =>
    simp only [hs, Bool.false_eq_true, if_false] at h
    rcases gives_atClosing_bind.mp h with ⟨hc, h⟩ | ⟨hc, h⟩
    · obtain ⟨-, rfl⟩ := gives_pure.mp h
      exact ⟨.closed hs hc.head?, rfl, rfl⟩
    · obtain ⟨hat, rfl⟩ := gives_expect.mp h
      have hclosing := hc.head?_ne
      rw [hat.head?] at hclosing
      rw [hat.lexemes_eq]
      exact ⟨.semicolon hs hclosing.symm, rfl, rfl⟩

theorem not_isKeyword {name : String} (h₁ : name ≠ "true") (h₂ : name ≠ "false")
    (h₃ : name ≠ "new") (h₄ : ¬ (name = "if" ∨ name = "else")) : isKeyword name = false := by
  simp_all [isKeyword, keywords]

/-- A token that is read on its own. -/
theorem parsed_token {l : Lexeme} {e : Expr} {c : Cursor} (hat : c.At (some l))
    (h : ∀ u, Parses (.primary e) 0 (l :: u) u) : (Phrase.primary e).Parsed c c.rest := by
  refine ⟨⟨0, .inl rfl, ?_⟩, rfl, rfl⟩
  rw [hat.lexemes_eq]
  exact h _

/-! ## One routine at a time -/

section

variable {n : Nat} {c c' : Cursor}
  (ih : ∀ (φ : Phrase) ⦃c c' : Cursor⦄, φ.Run n c c' → φ.held ≤ c.depth → φ.Parsed c c')

include ih

/-! ### Statements -/

theorem parsed_statements {closing : Option Symbol} {ss : List Stmt}
    (h : (Reader.statements (n + 1) closing).Gives c ss c') :
    (Phrase.statements closing ss).Parsed c c' := by
  rw [Reader.statements] at h
  rcases gives_atClosing_bind.mp h with ⟨hc, h⟩ | ⟨hc, h⟩
  · obtain ⟨rfl, rfl⟩ := gives_pure.mp h
    exact ⟨⟨0, .inl rfl, .statementsEnd hc.head?⟩, rfl, rfl⟩
  rcases gives_accept_bind.mp h with ⟨hs, h⟩ | ⟨hs, h⟩
  · obtain ⟨⟨m, hm, hp⟩, hb⟩ := ih (.statements closing ss) h (Nat.zero_le _)
    have hclosing := hc.head?_ne
    rw [hs.head?] at hclosing
    refine ⟨⟨m, hm, ?_⟩, hb⟩
    rw [hs.lexemes_eq]
    exact .statementsSkip hclosing.symm hp
  · obtain ⟨s, c₁, hst, h⟩ := gives_bind.mp h
    obtain ⟨u, c₂, hsep, h⟩ := gives_bind.mp h
    obtain ⟨rest, c₃, hss, h⟩ := gives_bind.mp h
    obtain ⟨rfl, rfl⟩ := gives_pure.mp h
    obtain ⟨⟨m₁, hm₁, hp₁⟩, hb₁⟩ := ih (.statement s) hst (Nat.zero_le _)
    obtain ⟨hseparated, hb₂⟩ := separated_of_gives hsep
    obtain ⟨⟨m₂, hm₂, hp₂⟩, hb₃⟩ := ih (.statements closing rest) hss (Nat.zero_le _)
    refine ⟨⟨_, ?_, .statementsCons hc.head?_ne hs.head?_ne hp₁ hseparated hp₂⟩, ?_⟩
    · grind
    · grind

theorem parsed_statement {s : Stmt} (h : (Reader.statement (n + 1)).Gives c s c') :
    (Phrase.statement s).Parsed c c' := by
  rw [Reader.statement] at h
  obtain ⟨hd, h⟩ := gives_deepen_bind.mp h
  obtain ⟨s, c₁, hs, h⟩ := gives_bind.mp h
  obtain ⟨rfl, rfl⟩ := gives_release_pure.mp h
  obtain ⟨⟨m, hm, hp⟩, hb⟩ := ih (.statementBody s) hs (Nat.zero_le _)
  exact ⟨⟨1 + m, by grind, .statement hp⟩, by grind⟩

theorem parsed_statementBody {s : Stmt} (h : (Reader.statementBody (n + 1)).Gives c s c') :
    (Phrase.statementBody s).Parsed c c' := by
  rw [Reader.statementBody] at h
  rcases gives_atWord_bind.mp h with ⟨hif, h⟩ | ⟨hif, h⟩
  · obtain ⟨⟨m, hm, hp⟩, hb⟩ := ih (.conditionalStatement s) h (Nat.zero_le _)
    rw [hif.lexemes_eq] at hp
    refine ⟨⟨m, hm, ?_⟩, hb⟩
    rw [hif.lexemes_eq]
    exact .conditionalBody hp
  obtain ⟨e, c₁, he, h⟩ := gives_bind.mp h
  obtain ⟨⟨m₁, hm₁, hp₁⟩, hb₁⟩ := ih (.expression e) he (Nat.zero_le _)
  rcases gives_accept_bind.mp h with ⟨heq, h⟩ | ⟨heq, h⟩
  · obtain ⟨v, c₂, hv, h⟩ := gives_bind.mp h
    obtain ⟨rfl, rfl⟩ := gives_pure.mp h
    obtain ⟨⟨m₂, hm₂, hp₂⟩, hb₂⟩ := ih (.expression v) hv (Nat.zero_le _)
    rw [heq.lexemes_eq] at hp₁
    exact ⟨⟨_, by grind, .assignmentBody hif.head?_ne hp₁ hp₂⟩, by grind⟩
  · obtain ⟨rfl, rfl⟩ := gives_pure.mp h
    exact ⟨⟨m₁, hm₁, .expressionBody hif.head?_ne hp₁ heq.head?_ne⟩, hb₁⟩

theorem parsed_conditionalStatement {s : Stmt}
    (h : (Reader.conditionalStatement (n + 1)).Gives c s c') :
    (Phrase.conditionalStatement s).Parsed c c' := by
  rw [Reader.conditionalStatement] at h
  obtain ⟨ho, h⟩ := gives_expect_bind.mp (gives_advance_bind.mp h)
  obtain ⟨condition, c₁, hc, h⟩ := gives_bind.mp h
  obtain ⟨hclose, h⟩ := gives_expect_bind.mp h
  obtain ⟨t, c₂, ht, h⟩ := gives_bind.mp h
  obtain ⟨⟨m₁, hm₁, hp₁⟩, hb₁⟩ := ih (.expression condition) hc (Nat.zero_le _)
  obtain ⟨⟨m₂, hm₂, hp₂⟩, hb₂⟩ := ih (.branch t) ht (Nat.zero_le _)
  obtain ⟨l, hl⟩ := ho.lexemes_of_rest
  rw [hclose.lexemes_eq] at hp₁
  unfold Phrase.Parsed
  rw [hl]
  rcases gives_atWord_bind.mp h with ⟨he, h⟩ | ⟨he, h⟩
  · obtain ⟨f, c₃, hf, h⟩ := gives_bind.mp (gives_advance_bind.mp h)
    obtain ⟨rfl, rfl⟩ := gives_pure.mp h
    obtain ⟨⟨m₃, hm₃, hp₃⟩, hb₃⟩ := ih (.branch f) hf (Nat.zero_le _)
    rw [he.lexemes_eq] at hp₂
    exact ⟨⟨_, by grind, .ifElse hp₁ hp₂ hp₃⟩, by grind⟩
  · obtain ⟨rfl, rfl⟩ := gives_pure.mp h
    exact ⟨⟨_, by grind, .ifOnly hp₁ hp₂ he.head?_ne⟩, by grind⟩

theorem parsed_branch {ss : List Stmt} (h : (Reader.branch (n + 1)).Gives c ss c') :
    (Phrase.branch ss).Parsed c c' := by
  rw [Reader.branch] at h
  rcases gives_accept_bind.mp h with ⟨ho, h⟩ | ⟨ho, h⟩
  · obtain ⟨ss, c₁, hss, h⟩ := gives_bind.mp h
    obtain ⟨hc, h⟩ := gives_expect_bind.mp h
    obtain ⟨rfl, rfl⟩ := gives_pure.mp h
    obtain ⟨⟨m, hm, hp⟩, hb⟩ := ih (.statements (some .rightBrace) ss) hss (Nat.zero_le _)
    rw [hc.lexemes_eq] at hp
    refine ⟨⟨m, hm, ?_⟩, hb⟩
    rw [ho.lexemes_eq]
    exact .block hp
  · obtain ⟨s, c₁, hs, h⟩ := gives_bind.mp h
    obtain ⟨rfl, rfl⟩ := gives_pure.mp h
    obtain ⟨⟨m, hm, hp⟩, hb⟩ := ih (.statement s) hs (Nat.zero_le _)
    exact ⟨⟨m, hm, .single ho.head?_ne hp⟩, hb⟩

/-! ### Expressions and operators -/

theorem parsed_expression {e : Expr} (h : (Reader.expression (n + 1)).Gives c e c') :
    (Phrase.expression e).Parsed c c' := by
  rw [Reader.expression] at h
  obtain ⟨hd, h⟩ := gives_deepen_bind.mp h
  obtain ⟨condition, c₁, hc, h⟩ := gives_bind.mp h
  obtain ⟨⟨m₁, hm₁, hp₁⟩, hb₁⟩ := ih (.binary 0 condition) hc (Nat.zero_le _)
  rcases gives_accept_bind.mp h with ⟨hq, h⟩ | ⟨hq, h⟩
  · obtain ⟨t, c₂, ht, h⟩ := gives_bind.mp h
    obtain ⟨hcolon, h⟩ := gives_expect_bind.mp h
    obtain ⟨f, c₃, hf, h⟩ := gives_bind.mp h
    obtain ⟨rfl, rfl⟩ := gives_release_pure.mp h
    obtain ⟨⟨m₂, hm₂, hp₂⟩, hb₂⟩ := ih (.expression t) ht (Nat.zero_le _)
    obtain ⟨⟨m₃, hm₃, hp₃⟩, hb₃⟩ := ih (.expression f) hf (Nat.zero_le _)
    rw [hq.lexemes_eq] at hp₁
    rw [hcolon.lexemes_eq] at hp₂
    exact ⟨⟨_, by grind, .choice hp₁ hp₂ hp₃⟩, by grind⟩
  · obtain ⟨rfl, rfl⟩ := gives_release_pure.mp h
    exact ⟨⟨1 + m₁, by grind, .plain hp₁ hq.head?_ne⟩, by grind⟩

theorem parsed_binary {level : Nat} {e : Expr} (h : (Reader.binary (n + 1) level).Gives c e c') :
    (Phrase.binary level e).Parsed c c' := by
  rw [Reader.binary] at h
  by_cases hl : level < BinaryOp.levels
  · rw [if_pos hl] at h
    obtain ⟨first, c₁, hf, h⟩ := gives_bind.mp h
    obtain ⟨⟨m₁, hm₁, hp₁⟩, hb₁⟩ := ih (.binary (level + 1) first) hf (Nat.zero_le _)
    obtain ⟨⟨m₂, hm₂, hp₂⟩, hb₂⟩ := ih (.binaryChain level first 0 e) h (Nat.zero_le _)
    exact ⟨⟨_, by grind, .level hl hp₁ hp₂⟩, by grind⟩
  · rw [if_neg hl] at h
    obtain ⟨⟨m, hm, hp⟩, hb⟩ := ih (.unary e) h (Nat.zero_le _)
    exact ⟨⟨m, hm, .noLevel hl hp⟩, hb⟩

theorem parsed_binaryChain {level held : Nat} {lhs e : Expr}
    (h : (Reader.binaryChain (n + 1) level lhs held).Gives c e c') (hheld : held ≤ c.depth) :
    (Phrase.binaryChain level lhs held e).Parsed c c' := by
  rw [Reader.binaryChain, infixOperator?_eq] at h
  rcases gives_operator?_bind.mp h with ⟨l, op, hat, hop, h⟩ | ⟨l, hat, hop, h⟩
  · obtain ⟨hd, h⟩ := gives_deepen_bind.mp h
    obtain ⟨rhs, c₁, hr, h⟩ := gives_bind.mp h
    obtain ⟨⟨m₁, hm₁, hp₁⟩, hb₁⟩ := ih (.binary (level + 1) rhs) hr (Nat.zero_le _)
    obtain ⟨⟨m₂, hm₂, hp₂⟩, hb₂⟩ :=
      ih (.binaryChain level (.binary op lhs rhs) (held + 1) e) h (by grind)
    obtain ⟨s, rfl⟩ := symbol_of_infixOf? hop
    refine ⟨⟨1 + max m₁ m₂, by grind, ?_⟩, by grind⟩
    rw [hat.lexemes_eq]
    exact .binaryStep hop hp₁ hp₂
  · obtain ⟨rfl, rfl⟩ := gives_release_pure.mp h
    exact ⟨⟨0, .inl rfl, .binaryEnd (hat.head? ▸ hop)⟩, by grind⟩

theorem parsed_unary {e : Expr} (h : (Reader.unary (n + 1)).Gives c e c') :
    (Phrase.unary e).Parsed c c' := by
  rw [Reader.unary, unaryOperator?_eq] at h
  rcases gives_operator?_bind.mp h with ⟨l, op, hat, hop, h⟩ | ⟨l, hat, hop, h⟩
  · obtain ⟨hd, h⟩ := gives_deepen_bind.mp h
    obtain ⟨operand, c₁, ho, h⟩ := gives_bind.mp h
    obtain ⟨rfl, rfl⟩ := gives_release_pure.mp h
    obtain ⟨⟨m, hm, hp⟩, hb⟩ := ih (.unary operand) ho (Nat.zero_le _)
    obtain ⟨s, rfl⟩ := symbol_of_unaryOf? hop
    refine ⟨⟨1 + m, by grind, ?_⟩, by grind⟩
    rw [hat.lexemes_eq]
    exact .unaryStep hop hp
  · obtain ⟨⟨m, hm, hp⟩, hb⟩ := ih (.application e) h (Nat.zero_le _)
    exact ⟨⟨m, hm, .unaryEnd (hat.head? ▸ hop) hp⟩, hb⟩

/-! ### Applications and properties -/

theorem parsed_application {e : Expr} (h : (Reader.application (n + 1)).Gives c e c') :
    (Phrase.application e).Parsed c c' := by
  rw [Reader.application] at h
  obtain ⟨head, c₁, hhead, h⟩ := gives_bind.mp h
  obtain ⟨⟨m₁, hm₁, hp₁⟩, hb₁⟩ := ih (.primary head) hhead (Nat.zero_le _)
  obtain ⟨⟨m₂, hm₂, hp₂⟩, hb₂⟩ := ih (.applicationChain head 0 e) h (Nat.zero_le _)
  exact ⟨⟨_, by grind, .application hp₁ hp₂⟩, by grind⟩

theorem parsed_applicationChain {held : Nat} {head e : Expr}
    (h : (Reader.applicationChain (n + 1) head held).Gives c e c') (hheld : held ≤ c.depth) :
    (Phrase.applicationChain head held e).Parsed c c' := by
  rw [Reader.applicationChain] at h
  rcases gives_accept_bind.mp h with ⟨ho, h⟩ | ⟨ho, h⟩
  · obtain ⟨hd, h⟩ := gives_deepen_bind.mp h
    obtain ⟨args, c₁, ha, h⟩ := gives_bind.mp h
    obtain ⟨⟨m₁, hm₁, hp₁⟩, hb₁⟩ := ih (.arguments args) ha (Nat.zero_le _)
    obtain ⟨⟨m₂, hm₂, hp₂⟩, hb₂⟩ :=
      ih (.applicationChain (.call head args) (held + 1) e) h (by grind)
    refine ⟨⟨1 + max m₁ m₂, by grind, ?_⟩, by grind⟩
    rw [ho.lexemes_eq]
    exact .callStep hp₁ hp₂
  obtain ⟨found, c₁, hfound, h⟩ := gives_bind.mp h
  obtain ⟨⟨m₁, hm₁, hp₁⟩, hb₁⟩ := ih (.property head found) hfound (Nat.zero_le _)
  cases found with
  | some head' =>
    obtain ⟨hd, h⟩ := gives_deepen_bind.mp h
    obtain ⟨⟨m₂, hm₂, hp₂⟩, hb₂⟩ := ih (.applicationChain head' (held + 1) e) h (by grind)
    exact ⟨⟨_, by grind, .propertyStep hp₁ hp₂⟩, by grind⟩
  | none =>
    obtain ⟨rfl, rfl⟩ := gives_release_pure.mp h
    obtain ⟨rfl, hlexemes⟩ := hp₁.property_none
    refine ⟨⟨0, .inl rfl, ?_⟩, by grind⟩
    rw [Cursor.lexemes_release, ← hlexemes]
    exact .applicationEnd ho.head?_ne (hlexemes ▸ hp₁)

theorem parsed_property {object : Expr} {found : Option Expr}
    (h : (Reader.property? (n + 1) object).Gives c found c') :
    (Phrase.property object found).Parsed c c' := by
  rw [Reader.property?] at h
  rcases gives_accept_bind.mp h with ⟨hdot, h⟩ | ⟨hdot, h⟩
  · obtain ⟨name, c₁, hn, h⟩ := gives_bind.mp h
    obtain ⟨hname, rfl⟩ := gives_propertyName.mp hn
    obtain ⟨rfl, rfl⟩ := gives_pure.mp h
    refine ⟨⟨0, .inl rfl, ?_⟩, rfl, rfl⟩
    rw [hdot.lexemes_eq, hname.lexemes_eq]
    exact .member
  rcases gives_accept_bind.mp h with ⟨ho, h⟩ | ⟨ho, h⟩
  · obtain ⟨key, c₁, hk, h⟩ := gives_bind.mp h
    obtain ⟨hc, h⟩ := gives_expect_bind.mp h
    obtain ⟨rfl, rfl⟩ := gives_pure.mp h
    obtain ⟨⟨m, hm, hp⟩, hb⟩ := ih (.expression key) hk (Nat.zero_le _)
    rw [hc.lexemes_eq] at hp
    refine ⟨⟨m, hm, ?_⟩, hb⟩
    rw [ho.lexemes_eq]
    exact .index hp
  · obtain ⟨rfl, rfl⟩ := gives_pure.mp h
    exact ⟨⟨0, .inl rfl, .noProperty hdot.head?_ne ho.head?_ne⟩, rfl, rfl⟩

theorem parsed_arguments {args : List Expr} (h : (Reader.arguments (n + 1)).Gives c args c') :
    (Phrase.arguments args).Parsed c c' := by
  rw [Reader.arguments] at h
  rcases gives_accept_bind.mp h with ⟨hc, h⟩ | ⟨hc, h⟩
  · obtain ⟨rfl, rfl⟩ := gives_pure.mp h
    refine ⟨⟨0, .inl rfl, ?_⟩, rfl, rfl⟩
    rw [hc.lexemes_eq]
    exact .noArguments
  · obtain ⟨⟨m, hm, hp⟩, hb⟩ := ih (.argumentsAfter args) h (Nat.zero_le _)
    exact ⟨⟨m, hm, .someArguments hc.head?_ne hp⟩, hb⟩

theorem parsed_argumentsAfter {args : List Expr}
    (h : (Reader.argumentsAfter (n + 1)).Gives c args c') :
    (Phrase.argumentsAfter args).Parsed c c' := by
  rw [Reader.argumentsAfter] at h
  obtain ⟨arg, c₁, ha, h⟩ := gives_bind.mp h
  obtain ⟨⟨m₁, hm₁, hp₁⟩, hb₁⟩ := ih (.expression arg) ha (Nat.zero_le _)
  rcases gives_accept_bind.mp h with ⟨hcomma, h⟩ | ⟨hcomma, h⟩
  · obtain ⟨rest, c₂, hrest, h⟩ := gives_bind.mp h
    obtain ⟨rfl, rfl⟩ := gives_pure.mp h
    obtain ⟨⟨m₂, hm₂, hp₂⟩, hb₂⟩ := ih (.argumentsAfter rest) hrest (Nat.zero_le _)
    rw [hcomma.lexemes_eq] at hp₁
    exact ⟨⟨_, by grind, .moreArguments hp₁ hp₂⟩, by grind⟩
  · obtain ⟨hc, h⟩ := gives_expect_bind.mp h
    obtain ⟨rfl, rfl⟩ := gives_pure.mp h
    rw [hc.lexemes_eq] at hp₁
    exact ⟨⟨m₁, hm₁, .lastArgument hp₁⟩, hb₁⟩

/-! ### Primaries and constructions -/

theorem parsed_primary {e : Expr} (h : (Reader.primary (n + 1)).Gives c e c') :
    (Phrase.primary e).Parsed c c' := by
  rw [Reader.primary] at h
  obtain ⟨l, p, hl, h⟩ := gives_peek_bind.mp h
  have hat : c.At l := ⟨p, hl⟩
  dsimp only at h
  split at h
  next =>
    obtain ⟨e, c₁, he, h⟩ := gives_bind.mp (gives_advance_bind.mp h)
    obtain ⟨hc, h⟩ := gives_expect_bind.mp h
    obtain ⟨rfl, rfl⟩ := gives_pure.mp h
    obtain ⟨⟨m, hm, hp⟩, hb⟩ := ih (.expression e) he (Nat.zero_le _)
    rw [hc.lexemes_eq] at hp
    refine ⟨⟨m, hm, ?_⟩, hb⟩
    rw [hat.lexemes_eq]
    exact .group hp
  next digits =>
    split at h
    next value hv =>
      obtain ⟨rfl, rfl⟩ := gives_advance_pure.mp h
      exact parsed_token hat fun _ => .number hv
    · exact absurd h not_gives_fail
  next contents =>
    obtain ⟨rfl, rfl⟩ := gives_advance_pure.mp h
    exact parsed_token hat fun _ => .text
  next name =>
    by_cases h₁ : name = "true"
    · rw [if_pos h₁] at h
      obtain ⟨rfl, rfl⟩ := gives_advance_pure.mp h
      exact parsed_token (h₁ ▸ hat) fun _ => .trueWord
    by_cases h₂ : name = "false"
    · rw [if_neg h₁, if_pos h₂] at h
      obtain ⟨rfl, rfl⟩ := gives_advance_pure.mp h
      exact parsed_token (h₂ ▸ hat) fun _ => .falseWord
    by_cases h₃ : name = "new"
    · rw [if_neg h₁, if_neg h₂, if_pos h₃] at h
      obtain ⟨⟨m, hm, hp⟩, hb⟩ :=
        ih (.construction e) (gives_advance_bind.mp h) (Nat.zero_le _)
      refine ⟨⟨m, hm, ?_⟩, hb⟩
      rw [hat.lexemes_eq, h₃]
      exact .new hp
    by_cases h₄ : name = "if" ∨ name = "else"
    · rw [if_neg h₁, if_neg h₂, if_neg h₃, if_pos h₄] at h
      exact absurd h not_gives_fail
    · rw [if_neg h₁, if_neg h₂, if_neg h₃, if_neg h₄] at h
      obtain ⟨rfl, rfl⟩ := gives_advance_pure.mp h
      exact parsed_token hat fun _ => .ident (not_isKeyword h₁ h₂ h₃ h₄)
  · exact absurd h not_gives_fail

theorem parsed_construction {e : Expr} (h : (Reader.construction (n + 1)).Gives c e c') :
    (Phrase.construction e).Parsed c c' := by
  rw [Reader.construction] at h
  obtain ⟨hd, h⟩ := gives_deepen_bind.mp h
  obtain ⟨callee, c₁, hcallee, h⟩ := gives_bind.mp h
  obtain ⟨⟨m₁, hm₁, hp₁⟩, hb₁⟩ := ih (.primary callee) hcallee (Nat.zero_le _)
  obtain ⟨⟨m₂, hm₂, hp₂⟩, hb₂⟩ := ih (.constructionChain callee 1 e) h (by grind)
  exact ⟨⟨_, by grind, .construction hp₁ hp₂⟩, by grind⟩

theorem parsed_constructionChain {held : Nat} {callee e : Expr}
    (h : (Reader.constructionChain (n + 1) callee held).Gives c e c') (hheld : held ≤ c.depth) :
    (Phrase.constructionChain callee held e).Parsed c c' := by
  rw [Reader.constructionChain] at h
  obtain ⟨found, c₁, hfound, h⟩ := gives_bind.mp h
  obtain ⟨⟨m₁, hm₁, hp₁⟩, hb₁⟩ := ih (.property callee found) hfound (Nat.zero_le _)
  cases found with
  | some callee' =>
    obtain ⟨hd, h⟩ := gives_deepen_bind.mp h
    obtain ⟨⟨m₂, hm₂, hp₂⟩, hb₂⟩ := ih (.constructionChain callee' (held + 1) e) h (by grind)
    exact ⟨⟨_, by grind, .constructionStep hp₁ hp₂⟩, by grind⟩
  | none =>
    obtain ⟨ho, h⟩ := gives_expect_bind.mp h
    obtain ⟨args, c₂, ha, h⟩ := gives_bind.mp h
    obtain ⟨rfl, rfl⟩ := gives_release_pure.mp h
    obtain ⟨⟨m₂, hm₂, hp₂⟩, hb₂⟩ := ih (.arguments args) ha (Nat.zero_le _)
    obtain ⟨rfl, hlexemes⟩ := hp₁.property_none
    refine ⟨⟨m₂, by grind, ?_⟩, by grind⟩
    rw [hlexemes, ho.lexemes_eq]
    exact .constructionEnd hp₂

end

/-! ## All routines -/

/-- **What the routines read, the rules read**, with levels that there are to spare. -/
theorem parsed_of_run {n : Nat} {φ : Phrase} {c c' : Cursor} (h : φ.Run n c c')
    (hheld : φ.held ≤ c.depth) : φ.Parsed c c' := by
  induction n generalizing φ c c' with
  | zero => exact absurd h φ.not_run_zero
  | succ n ih =>
    cases φ with
    | statements => exact parsed_statements @ih h
    | statement => exact parsed_statement @ih h
    | statementBody => exact parsed_statementBody @ih h
    | conditionalStatement => exact parsed_conditionalStatement @ih h
    | branch => exact parsed_branch @ih h
    | expression => exact parsed_expression @ih h
    | binary => exact parsed_binary @ih h
    | binaryChain => exact parsed_binaryChain @ih h hheld
    | unary => exact parsed_unary @ih h
    | application => exact parsed_application @ih h
    | applicationChain => exact parsed_applicationChain @ih h hheld
    | property => exact parsed_property @ih h
    | primary => exact parsed_primary @ih h
    | construction => exact parsed_construction @ih h
    | constructionChain => exact parsed_constructionChain @ih h hheld
    | arguments => exact parsed_arguments @ih h
    | argumentsAfter => exact parsed_argumentsAfter @ih h

/-- Statements are read up to what closes them. -/
theorem at_closing_of_gives {n : Nat} {closing : Option Symbol} {ss : List Stmt} {c c' : Cursor}
    (h : (Reader.statements n closing).Gives c ss c') : c'.At (closing.map .symbol) := by
  induction n generalizing ss c with
  | zero => exact absurd h (Phrase.statements closing ss).not_run_zero
  | succ n ih =>
    rw [Reader.statements] at h
    rcases gives_atClosing_bind.mp h with ⟨hc, h⟩ | ⟨-, h⟩
    · obtain ⟨-, rfl⟩ := gives_pure.mp h
      exact hc
    rcases gives_accept_bind.mp h with ⟨-, h⟩ | ⟨-, h⟩
    · exact ih h
    · obtain ⟨s, c₁, -, h⟩ := gives_bind.mp h
      obtain ⟨u, c₂, -, h⟩ := gives_bind.mp h
      obtain ⟨rest, c₃, hss, h⟩ := gives_bind.mp h
      obtain ⟨-, rfl⟩ := gives_pure.mp h
      exact ih hss

end Isa16
