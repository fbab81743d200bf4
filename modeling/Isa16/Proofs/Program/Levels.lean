import Isa16.Proofs.Program.Reading

/-!
# The limit on nesting

* `Reader.Halts`: a step of reading stops, and with it what it begins.
* `Reader.Meets`: a step of reading that succeeds if there are levels to spare for it, and otherwise
  stops for want of them.
* `Phrase.Reaches`: a routine reads a phrase off the lexemes ahead in that way, and gives back the
  levels that it holds.
* `reaches_of_parses`: the routines read lexemes as the rules without a limit do. One lemma for each
  routine takes this for granted with a smaller allowance.
* **`parse_eq_ok_iff_parses`**, **`parse_eq_error_of_parses`**: a text is read exactly if its
  lexemes are, with no more than `maxNesting` levels.
-/

namespace Isa16

/-! ## Steps that need levels -/

namespace Reader

variable {α β : Type} {c c₁ c' : Cursor} {m n : Nat}

/-- The step stops. -/
def Halts (x : Reader α) (c : Cursor) (e : Halt) : Prop :=
  x.run c = .error e

theorem halts_bind {x : Reader α} {f : α → Reader β} {e : Halt} (h : Halts x c e) :
    Halts (x >>= f) c e := by
  unfold Halts at h ⊢
  rw [StateT.run_bind, h]
  rfl

theorem halts_bind_of_gives {x : Reader α} {f : α → Reader β} {a : α} {e : Halt}
    (h : Gives x c a c₁) (hf : Halts (f a) c₁ e) : Halts (x >>= f) c e := by
  unfold Halts at hf ⊢
  rw [StateT.run_bind, show x.run c = .ok (a, c₁) from h]
  exact hf

/-- The step stops because too many levels are held. -/
def Sinks (x : Reader α) (c : Cursor) : Prop :=
  ∃ p, x.run c = .error (.fault (.grammatical p .nestedTooDeeply))

/-- The step needs `m` more levels at once: it succeeds if there are as many to spare, and stops for
want of them if not. -/
def Meets (x : Reader α) (m : Nat) (c : Cursor) (a : α) (c' : Cursor) : Prop :=
  (c.Spares m → Gives x c a c') ∧ (¬ c.Spares m → Sinks x c)

theorem sinks_bind {x : Reader α} {f : α → Reader β} (h : Sinks x c) : Sinks (x >>= f) c := by
  obtain ⟨p, hp⟩ := h
  exact ⟨p, halts_bind hp⟩

theorem sinks_bind_of_gives {x : Reader α} {f : α → Reader β} {a : α} (h : Gives x c a c₁)
    (hf : Sinks (f a) c₁) : Sinks (x >>= f) c := by
  obtain ⟨p, hp⟩ := hf
  exact ⟨p, halts_bind_of_gives h hp⟩

/-- A step that always succeeds needs no level. -/
theorem meets_of_gives {x : Reader α} {a : α} (h : Gives x c a c') : Meets x 0 c a c' :=
  ⟨fun _ => h, fun hnot => absurd (Or.inl rfl) hnot⟩

/-- Two steps, the first of which gives back what it holds, need the levels of either. -/
theorem meets_bind {x : Reader α} {f : α → Reader β} {a : α} {b : β} (hx : Meets x m c a c₁)
    (hd : c₁.depth = c.depth) (hf : Meets (f a) n c₁ b c') :
    Meets (x >>= f) (max m n) c b c' := by
  have hsplit : c.Spares (max m n) ↔ c.Spares m ∧ c₁.Spares n := by
    unfold Cursor.Spares
    omega
  constructor
  · intro h
    obtain ⟨hm, hn⟩ := hsplit.mp h
    exact gives_bind.mpr ⟨a, c₁, hx.1 hm, hf.1 hn⟩
  · intro h
    by_cases hm : c.Spares m
    · exact sinks_bind_of_gives (hx.1 hm) (hf.2 fun hn => h (hsplit.mpr ⟨hm, hn⟩))
    · exact sinks_bind (hx.2 hm)

theorem meets_gives_bind {x : Reader α} {f : α → Reader β} {a : α} {b : β} (hx : Gives x c a c₁)
    (hd : c₁.depth = c.depth) (hf : Meets (f a) n c₁ b c') : Meets (x >>= f) n c b c' := by
  have h := meets_bind (meets_of_gives hx) hd hf
  rwa [Nat.zero_max] at h

theorem meets_bind_gives {x : Reader α} {f : α → Reader β} {a : α} {b : β} (hx : Meets x m c a c₁)
    (hd : c₁.depth = c.depth) (hf : Gives (f a) c₁ b c') : Meets (x >>= f) m c b c' := by
  have h := meets_bind hx hd (meets_of_gives hf)
  rwa [Nat.max_zero] at h

theorem sinks_deepen {l : Option Lexeme} (hat : c.At l) (hd : ¬ c.depth < maxNesting) :
    Sinks deepen c := by
  obtain ⟨p, hp⟩ := hat
  refine sinks_bind_of_gives (show Gives get c c c from rfl) ?_
  simp only [if_neg hd]
  exact sinks_bind_of_gives (gives_peek.mpr ⟨hp, rfl⟩) ⟨p, rfl⟩

/-- A level is claimed in front of a token or of the end of the text. -/
theorem meets_deepen_bind {f : Unit → Reader β} {b : β} {l : Option Lexeme} (hat : c.At l)
    (hf : Meets (f ()) n c.deeper b c') : Meets (deepen >>= f) (1 + n) c b c' := by
  have hsplit : c.Spares (1 + n) ↔ c.depth < maxNesting ∧ c.deeper.Spares n := by
    simp only [Cursor.Spares, Cursor.deeper_depth]
    omega
  constructor
  · intro h
    obtain ⟨hd, hn⟩ := hsplit.mp h
    exact gives_deepen_bind.mpr ⟨hd, hf.1 hn⟩
  · intro h
    by_cases hd : c.depth < maxNesting
    · exact sinks_bind_of_gives (gives_deepen.mpr ⟨hd, rfl⟩)
        (hf.2 fun hn => h (hsplit.mpr ⟨hd, hn⟩))
    · exact sinks_bind (sinks_deepen hat hd)

theorem gives_accept_true {s : Symbol} (h : c.AtSymbol s) : Gives (accept s) c true c.rest :=
  gives_accept.mpr (Or.inl ⟨rfl, h, rfl⟩)

theorem gives_accept_false {s : Symbol} (h : c.NotAtSymbol s) : Gives (accept s) c false c :=
  gives_accept.mpr (Or.inr ⟨rfl, h, rfl⟩)

theorem gives_at_true {l : Option Lexeme} (h : c.At l) :
    Gives (do let (found, _) ← peek; return decide (found = l)) c true c := by
  obtain ⟨p, hp⟩ := h
  exact gives_peek_bind.mpr ⟨l, p, hp, gives_pure.mpr ⟨(decide_eq_true rfl).symm, rfl⟩⟩

theorem gives_at_false {l : Option Lexeme} (h : c.NotAt l) :
    Gives (do let (found, _) ← peek; return decide (found = l)) c false c := by
  obtain ⟨l', ⟨p, hp⟩, hne⟩ := h
  exact gives_peek_bind.mpr ⟨l', p, hp, gives_pure.mpr ⟨(decide_eq_false hne).symm, rfl⟩⟩

theorem gives_atWord_true {word : String} (h : c.AtWord word) : Gives (atWord word) c true c :=
  gives_at_true h

theorem gives_atWord_false {word : String} (h : c.NotAtWord word) :
    Gives (atWord word) c false c :=
  gives_at_false h

theorem gives_atClosing_true {closing : Option Symbol} (h : c.At (closing.map .symbol)) :
    Gives (atClosing closing) c true c :=
  gives_at_true h

theorem gives_atClosing_false {closing : Option Symbol} (h : c.NotAt (closing.map .symbol)) :
    Gives (atClosing closing) c false c :=
  gives_at_false h

theorem gives_operator?_some {γ : Type} {classify : Option Lexeme → Option γ} {l : Option Lexeme}
    {op : γ} (h : c.At l) (hop : classify l = some op) :
    Gives (operator? classify) c (some op) c.rest := by
  obtain ⟨p, hp⟩ := h
  refine gives_peek_bind.mpr ⟨l, p, hp, ?_⟩
  simp only [hop]
  exact gives_advance_pure.mpr ⟨rfl, rfl⟩

theorem gives_operator?_none {γ : Type} {classify : Option Lexeme → Option γ} {l : Option Lexeme}
    (h : c.At l) (hop : classify l = none) : Gives (operator? classify) c none c := by
  obtain ⟨p, hp⟩ := h
  refine gives_peek_bind.mpr ⟨l, p, hp, ?_⟩
  simp only [hop]
  exact gives_pure.mpr ⟨rfl, rfl⟩

theorem meets_advance_bind {f : Unit → Reader β} {b : β} (hf : Meets (f ()) n c.rest b c') :
    Meets (advance >>= f) n c b c' :=
  meets_gives_bind (gives_advance.mpr rfl) rfl hf

theorem meets_expect_bind {s : Symbol} {what : Expectation} {f : Unit → Reader β} {b : β}
    (hat : c.AtSymbol s) (hf : Meets (f ()) n c.rest b c') : Meets (expect s what >>= f) n c b c' :=
  meets_gives_bind (gives_expect.mpr ⟨hat, rfl⟩) rfl hf

theorem meets_peek_bind {f : Option Lexeme × Position → Reader β} {b : β} {l : Option Lexeme}
    (hat : c.At l) (hf : ∀ p, Meets (f (l, p)) n c b c') : Meets (peek >>= f) n c b c' := by
  obtain ⟨p, hp⟩ := hat
  exact meets_gives_bind (gives_peek.mpr ⟨hp, rfl⟩) rfl (hf p)

theorem meets_advance_pure {a : α} : Meets (do advance; return a) 0 c a c.rest :=
  meets_of_gives (gives_advance_pure.mpr ⟨rfl, rfl⟩)

/-- Past a symbol that has to be there, with a result. -/
theorem gives_expect_pure {s : Symbol} {what : Expectation} {a : α} (hat : c.AtSymbol s) :
    Gives (do expect s what; return a) c a c.rest :=
  gives_expect_bind.mpr ⟨hat, gives_pure.mpr ⟨rfl, rfl⟩⟩

theorem gives_pure_self {a : α} : Gives (pure a) c a c :=
  gives_pure.mpr ⟨rfl, rfl⟩

theorem gives_release_pure_self (k : Nat) {a : α} :
    Gives (do release k; return a) c a (c.release k) :=
  gives_release_pure.mpr ⟨rfl, rfl⟩

end Reader

/-- The step needs `m` more levels at once, reads up to the lexemes `v`, and gives back `held`
levels besides its own. -/
def Reader.Reaches {α : Type} (x : Reader α) (m held : Nat) (c : Cursor) (a : α)
    (v : List Lexeme) : Prop :=
  ∃ c', c'.Ahead v ∧ c'.depth + held = c.depth ∧ x.Meets m c a c'

/-- The routine with this allowance reads the phrase up to the lexemes `v`. -/
def Phrase.Reaches (n m : Nat) (φ : Phrase) (c : Cursor) (v : List Lexeme) : Prop :=
  (φ.production.read n).Reaches m φ.held c φ.result v

open Reader

/-- The separator is found, or none is needed. -/
theorem gives_separator_of_separated {closing : Option Symbol} {s : Stmt} {u v : List Lexeme}
    {c : Cursor} (h : Separated closing s u v) (hc : c.Ahead u) :
    ∃ c', Gives (separator closing s) c () c' ∧ c'.Ahead v ∧ c'.depth = c.depth := by
  unfold separator
  cases h with
  | conditional hs =>
    rw [if_pos hs]
    exact ⟨c, gives_pure_self, hc, rfl⟩
  | closed hs hclosing =>
    simp only [hs, Bool.false_eq_true, if_false]
    exact ⟨c, gives_atClosing_bind.mpr (.inl ⟨hclosing ▸ hc.at, gives_pure_self⟩), hc, rfl⟩
  | semicolon hs hclosing =>
    simp only [hs, Bool.false_eq_true, if_false]
    refine ⟨c.rest, gives_atClosing_bind.mpr (.inr ⟨?_, ?_⟩), hc.rest, rfl⟩
    · exact hc.at.notAt hclosing.symm
    · exact gives_expect.mpr ⟨hc.at, rfl⟩

theorem ne_of_isKeyword {name : String} (h : isKeyword name = false) :
    name ≠ "true" ∧ name ≠ "false" ∧ name ≠ "new" ∧ ¬ (name = "if" ∨ name = "else") := by
  simp_all [isKeyword, keywords]

/-! ## One routine at a time -/

section

-- the lexemes that a part takes pay for the allowance of what comes behind it
attribute [grind →] Parses.length_le

variable {n m : Nat} {u v : List Lexeme} {c : Cursor}
  (ih : ∀ ⦃φ : Phrase⦄ ⦃m : Nat⦄ ⦃u v : List Lexeme⦄, Parses φ m u v → ∀ ⦃c : Cursor⦄, c.Ahead u →
    φ.held ≤ c.depth → φ.cost + 20 * u.length ≤ n + 20 * v.length → φ.Reaches n m c v)

include ih

/-! ### Statements -/

theorem reaches_statements {closing : Option Symbol} {ss : List Stmt}
    (h : Parses (.statements closing ss) m u v) (hc : c.Ahead u)
    (hn : (Phrase.statements closing ss).cost + 20 * u.length ≤ n + 1 + 20 * v.length) :
    (Reader.statements (n + 1) closing).Reaches m 0 c ss v := by
  rw [Reader.statements]
  cases h with
  | statementsEnd h =>
    refine ⟨c, hc, rfl, ?_⟩
    exact meets_gives_bind (gives_atClosing_true (h ▸ hc.at)) rfl (meets_of_gives gives_pure_self)
  | statementsSkip hclosing h =>
    obtain ⟨c₁, h₁, hd₁, hm₁⟩ := ih h hc.rest (Nat.zero_le _) (by grind)
    refine ⟨c₁, h₁, hd₁, ?_⟩
    refine meets_gives_bind (gives_atClosing_false (hc.at.notAt hclosing.symm)) rfl ?_
    exact meets_gives_bind (gives_accept_true hc.at) rfl hm₁
  | statementsCons hclosing hsemi hs hsep h =>
    obtain ⟨c₁, h₁, hd₁, hm₁⟩ := ih hs hc (Nat.zero_le _) (by grind)
    obtain ⟨c₂, hgives, h₂, hd₂⟩ := gives_separator_of_separated hsep h₁
    obtain ⟨c₃, h₃, hd₃, hm₃⟩ := ih h h₂ (Nat.zero_le _) (by grind)
    refine ⟨c₃, h₃, by grind, ?_⟩
    refine meets_gives_bind (gives_atClosing_false (hc.at.notAt hclosing)) rfl ?_
    refine meets_gives_bind (gives_accept_false (hc.at.notAt hsemi)) rfl ?_
    refine meets_bind hm₁ hd₁ (meets_gives_bind hgives hd₂ ?_)
    exact meets_bind_gives hm₃ hd₃ gives_pure_self

theorem reaches_statement {s : Stmt} (h : Parses (.statement s) m u v) (hc : c.Ahead u)
    (hn : (Phrase.statement s).cost + 20 * u.length ≤ n + 1 + 20 * v.length) :
    (Reader.statement (n + 1)).Reaches m 0 c s v := by
  rw [Reader.statement]
  cases h with
  | statement h =>
    obtain ⟨c₁, h₁, hd₁, hm₁⟩ := ih h hc.deeper (Nat.zero_le _) (by grind)
    refine ⟨c₁.release 1, h₁.release 1, by grind, ?_⟩
    refine meets_deepen_bind hc.at ?_
    exact meets_bind_gives hm₁ hd₁ (gives_release_pure_self 1)

theorem reaches_statementBody {s : Stmt} (h : Parses (.statementBody s) m u v) (hc : c.Ahead u)
    (hn : (Phrase.statementBody s).cost + 20 * u.length ≤ n + 1 + 20 * v.length) :
    (Reader.statementBody (n + 1)).Reaches m 0 c s v := by
  rw [Reader.statementBody]
  cases h with
  | conditionalBody h =>
    obtain ⟨c₁, h₁, hd₁, hm₁⟩ := ih h hc (Nat.zero_le _) (by grind)
    refine ⟨c₁, h₁, hd₁, ?_⟩
    exact meets_gives_bind (gives_atWord_true hc.at) rfl hm₁
  | assignmentBody hif ht hv =>
    obtain ⟨c₁, h₁, hd₁, hm₁⟩ := ih ht hc (Nat.zero_le _) (by grind)
    obtain ⟨c₂, h₂, hd₂, hm₂⟩ := ih hv h₁.rest (Nat.zero_le _) (by grind)
    refine ⟨c₂, h₂, by grind, ?_⟩
    refine meets_gives_bind (gives_atWord_false (hc.at.notAt hif)) rfl (meets_bind hm₁ hd₁ ?_)
    refine meets_gives_bind (gives_accept_true h₁.at) rfl ?_
    exact meets_bind_gives hm₂ hd₂ gives_pure_self
  | expressionBody hif he heq =>
    obtain ⟨c₁, h₁, hd₁, hm₁⟩ := ih he hc (Nat.zero_le _) (by grind)
    refine ⟨c₁, h₁, hd₁, ?_⟩
    refine meets_gives_bind (gives_atWord_false (hc.at.notAt hif)) rfl ?_
    refine meets_bind_gives hm₁ hd₁ (gives_bind.mpr ?_)
    exact ⟨_, _, gives_accept_false (h₁.at.notAt heq), gives_pure_self⟩

theorem reaches_conditionalStatement {s : Stmt} (h : Parses (.conditionalStatement s) m u v)
    (hc : c.Ahead u)
    (hn : (Phrase.conditionalStatement s).cost + 20 * u.length ≤ n + 1 + 20 * v.length) :
    (Reader.conditionalStatement (n + 1)).Reaches m 0 c s v := by
  rw [Reader.conditionalStatement]
  cases h with
  | ifElse hcond ht hf =>
    obtain ⟨c₁, h₁, hd₁, hm₁⟩ := ih hcond hc.rest.rest (Nat.zero_le _) (by grind)
    obtain ⟨c₂, h₂, hd₂, hm₂⟩ := ih ht h₁.rest (Nat.zero_le _) (by grind)
    obtain ⟨c₃, h₃, hd₃, hm₃⟩ := ih hf h₂.rest (Nat.zero_le _) (by grind)
    refine ⟨c₃, h₃, by grind, ?_⟩
    refine meets_advance_bind (meets_expect_bind hc.rest.at (meets_bind hm₁ hd₁ ?_))
    refine meets_expect_bind h₁.at (meets_bind hm₂ hd₂ ?_)
    refine meets_gives_bind (gives_atWord_true h₂.at) rfl (meets_advance_bind ?_)
    exact meets_bind_gives hm₃ hd₃ gives_pure_self
  | ifOnly hcond ht helse =>
    obtain ⟨c₁, h₁, hd₁, hm₁⟩ := ih hcond hc.rest.rest (Nat.zero_le _) (by grind)
    obtain ⟨c₂, h₂, hd₂, hm₂⟩ := ih ht h₁.rest (Nat.zero_le _) (by grind)
    refine ⟨c₂, h₂, by grind, ?_⟩
    refine meets_advance_bind (meets_expect_bind hc.rest.at (meets_bind hm₁ hd₁ ?_))
    refine meets_expect_bind h₁.at (meets_bind_gives hm₂ hd₂ (gives_bind.mpr ?_))
    exact ⟨_, _, gives_atWord_false (h₂.at.notAt helse), gives_pure_self⟩

theorem reaches_branch {ss : List Stmt} (h : Parses (.branch ss) m u v) (hc : c.Ahead u)
    (hn : (Phrase.branch ss).cost + 20 * u.length ≤ n + 1 + 20 * v.length) :
    (Reader.branch (n + 1)).Reaches m 0 c ss v := by
  rw [Reader.branch]
  cases h with
  | block h =>
    obtain ⟨c₁, h₁, hd₁, hm₁⟩ := ih h hc.rest (Nat.zero_le _) (by grind)
    refine ⟨c₁.rest, h₁.rest, hd₁, ?_⟩
    refine meets_gives_bind (gives_accept_true hc.at) rfl ?_
    exact meets_bind_gives hm₁ hd₁ (gives_expect_pure h₁.at)
  | single ho h =>
    obtain ⟨c₁, h₁, hd₁, hm₁⟩ := ih h hc (Nat.zero_le _) (by grind)
    refine ⟨c₁, h₁, hd₁, ?_⟩
    refine meets_gives_bind (gives_accept_false (hc.at.notAt ho)) rfl ?_
    exact meets_bind_gives hm₁ hd₁ gives_pure_self

/-! ### Expressions and operators -/

theorem reaches_expression {e : Expr} (h : Parses (.expression e) m u v) (hc : c.Ahead u)
    (hn : (Phrase.expression e).cost + 20 * u.length ≤ n + 1 + 20 * v.length) :
    (Reader.expression (n + 1)).Reaches m 0 c e v := by
  rw [Reader.expression]
  cases h with
  | choice hcond ht hf =>
    obtain ⟨c₁, h₁, hd₁, hm₁⟩ := ih hcond hc.deeper (Nat.zero_le _) (by grind)
    obtain ⟨c₂, h₂, hd₂, hm₂⟩ := ih ht h₁.rest (Nat.zero_le _) (by grind)
    obtain ⟨c₃, h₃, hd₃, hm₃⟩ := ih hf h₂.rest (Nat.zero_le _) (by grind)
    refine ⟨c₃.release 1, h₃.release 1, by grind, ?_⟩
    refine meets_deepen_bind hc.at (meets_bind hm₁ hd₁ ?_)
    refine meets_gives_bind (gives_accept_true h₁.at) rfl (meets_bind hm₂ hd₂ ?_)
    refine meets_expect_bind h₂.at ?_
    exact meets_bind_gives hm₃ hd₃ (gives_release_pure_self 1)
  | plain he hq =>
    obtain ⟨c₁, h₁, hd₁, hm₁⟩ := ih he hc.deeper (Nat.zero_le _) (by grind)
    refine ⟨c₁.release 1, h₁.release 1, by grind, ?_⟩
    refine meets_deepen_bind hc.at (meets_bind_gives hm₁ hd₁ (gives_bind.mpr ?_))
    exact ⟨_, _, gives_accept_false (h₁.at.notAt hq), gives_release_pure_self 1⟩

theorem reaches_binary {level : Nat} {e : Expr} (h : Parses (.binary level e) m u v)
    (hc : c.Ahead u)
    (hn : (Phrase.binary level e).cost + 20 * u.length ≤ n + 1 + 20 * v.length) :
    (Reader.binary (n + 1) level).Reaches m 0 c e v := by
  rw [Reader.binary]
  cases h with
  | level hl hf h =>
    obtain ⟨c₁, h₁, hd₁, hm₁⟩ := ih hf hc (Nat.zero_le _) (by grind)
    obtain ⟨c₂, h₂, hd₂, hm₂⟩ := ih h h₁ (Nat.zero_le _) (by grind)
    refine ⟨c₂, h₂, by grind, ?_⟩
    rw [if_pos hl]
    exact meets_bind hm₁ hd₁ hm₂
  | noLevel hl h =>
    obtain ⟨c₁, h₁, hd₁, hm₁⟩ := ih h hc (Nat.zero_le _) (by grind)
    refine ⟨c₁, h₁, hd₁, ?_⟩
    rw [if_neg hl]
    exact hm₁

theorem reaches_binaryChain {level held : Nat} {lhs e : Expr}
    (h : Parses (.binaryChain level lhs held e) m u v) (hc : c.Ahead u) (hheld : held ≤ c.depth)
    (hn : (Phrase.binaryChain level lhs held e).cost + 20 * u.length ≤ n + 1 + 20 * v.length) :
    (Reader.binaryChain (n + 1) level lhs held).Reaches m held c e v := by
  rw [Reader.binaryChain, infixOperator?_eq]
  cases h with
  | binaryStep hop hr h =>
    obtain ⟨c₁, h₁, hd₁, hm₁⟩ := ih hr hc.rest.deeper (Nat.zero_le _) (by grind)
    obtain ⟨c₂, h₂, hd₂, hm₂⟩ := ih h h₁ (by grind) (by grind)
    refine ⟨c₂, h₂, by grind, ?_⟩
    refine meets_gives_bind (gives_operator?_some hc.at hop) rfl ?_
    exact meets_deepen_bind hc.rest.at (meets_bind hm₁ hd₁ hm₂)
  | @binaryEnd _ held _ _ hop =>
    refine ⟨c.release held, hc.release held, by grind, ?_⟩
    refine meets_gives_bind (gives_operator?_none hc.at hop) rfl ?_
    exact meets_of_gives (gives_release_pure_self held)

theorem reaches_unary {e : Expr} (h : Parses (.unary e) m u v) (hc : c.Ahead u)
    (hn : (Phrase.unary e).cost + 20 * u.length ≤ n + 1 + 20 * v.length) :
    (Reader.unary (n + 1)).Reaches m 0 c e v := by
  rw [Reader.unary, unaryOperator?_eq]
  cases h with
  | unaryStep hop h =>
    obtain ⟨c₁, h₁, hd₁, hm₁⟩ := ih h hc.rest.deeper (Nat.zero_le _) (by grind)
    refine ⟨c₁.release 1, h₁.release 1, by grind, ?_⟩
    refine meets_gives_bind (gives_operator?_some hc.at hop) rfl (meets_deepen_bind hc.rest.at ?_)
    exact meets_bind_gives hm₁ hd₁ (gives_release_pure_self 1)
  | unaryEnd hop h =>
    obtain ⟨c₁, h₁, hd₁, hm₁⟩ := ih h hc (Nat.zero_le _) (by grind)
    refine ⟨c₁, h₁, hd₁, ?_⟩
    exact meets_gives_bind (gives_operator?_none hc.at hop) rfl hm₁

/-! ### Applications and properties -/

theorem reaches_application {e : Expr} (h : Parses (.application e) m u v) (hc : c.Ahead u)
    (hn : (Phrase.application e).cost + 20 * u.length ≤ n + 1 + 20 * v.length) :
    (Reader.application (n + 1)).Reaches m 0 c e v := by
  rw [Reader.application]
  cases h with
  | application hp h =>
    obtain ⟨c₁, h₁, hd₁, hm₁⟩ := ih hp hc (Nat.zero_le _) (by grind)
    obtain ⟨c₂, h₂, hd₂, hm₂⟩ := ih h h₁ (Nat.zero_le _) (by grind)
    refine ⟨c₂, h₂, by grind, ?_⟩
    exact meets_bind hm₁ hd₁ hm₂

theorem reaches_applicationChain {held : Nat} {head e : Expr}
    (h : Parses (.applicationChain head held e) m u v) (hc : c.Ahead u) (hheld : held ≤ c.depth)
    (hn : (Phrase.applicationChain head held e).cost + 20 * u.length ≤ n + 1 + 20 * v.length) :
    (Reader.applicationChain (n + 1) head held).Reaches m held c e v := by
  rw [Reader.applicationChain]
  cases h with
  | callStep ha h =>
    obtain ⟨c₁, h₁, hd₁, hm₁⟩ := ih ha hc.rest.deeper (Nat.zero_le _) (by grind)
    obtain ⟨c₂, h₂, hd₂, hm₂⟩ := ih h h₁ (by grind) (by grind)
    refine ⟨c₂, h₂, by grind, ?_⟩
    refine meets_gives_bind (gives_accept_true hc.at) rfl ?_
    exact meets_deepen_bind hc.rest.at (meets_bind hm₁ hd₁ hm₂)
  | propertyStep hp h =>
    obtain ⟨c₁, h₁, hd₁, hm₁⟩ := ih hp hc (Nat.zero_le _) (by grind)
    obtain ⟨c₂, h₂, hd₂, hm₂⟩ := ih h h₁.deeper (by grind) (by grind)
    refine ⟨c₂, h₂, by grind, ?_⟩
    refine meets_gives_bind (gives_accept_false (hc.at.notAt (by grind))) rfl ?_
    exact meets_bind hm₁ hd₁ (meets_deepen_bind h₁.at hm₂)
  | @applicationEnd _ held _ ho hp =>
    obtain ⟨c₁, h₁, hd₁, hm₁⟩ := ih hp hc (Nat.zero_le _) (by grind)
    refine ⟨c₁.release held, h₁.release held, by grind, ?_⟩
    refine meets_gives_bind (gives_accept_false (hc.at.notAt ho)) rfl ?_
    exact meets_bind_gives hm₁ hd₁ (gives_release_pure_self held)

theorem reaches_property {object : Expr} {found : Option Expr}
    (h : Parses (.property object found) m u v) (hc : c.Ahead u)
    (hn : (Phrase.property object found).cost + 20 * u.length ≤ n + 1 + 20 * v.length) :
    (Reader.property? (n + 1) object).Reaches m 0 c found v := by
  rw [Reader.property?]
  cases h with
  | member =>
    refine ⟨c.rest.rest, hc.rest.rest, rfl, ?_⟩
    refine meets_gives_bind (gives_accept_true hc.at) rfl (meets_of_gives (gives_bind.mpr ?_))
    exact ⟨_, _, gives_propertyName.mpr ⟨hc.rest.at, rfl⟩, gives_pure_self⟩
  | index h =>
    obtain ⟨c₁, h₁, hd₁, hm₁⟩ := ih h hc.rest (Nat.zero_le _) (by grind)
    refine ⟨c₁.rest, h₁.rest, hd₁, ?_⟩
    refine meets_gives_bind (gives_accept_false (hc.at.notAt (by simp))) rfl ?_
    refine meets_gives_bind (gives_accept_true hc.at) rfl ?_
    exact meets_bind_gives hm₁ hd₁ (gives_expect_pure h₁.at)
  | noProperty hdot ho =>
    refine ⟨c, hc, rfl, ?_⟩
    refine meets_gives_bind (gives_accept_false (hc.at.notAt hdot)) rfl ?_
    refine meets_gives_bind (gives_accept_false (hc.at.notAt ho)) rfl ?_
    exact meets_of_gives gives_pure_self

theorem reaches_arguments {args : List Expr} (h : Parses (.arguments args) m u v) (hc : c.Ahead u)
    (hn : (Phrase.arguments args).cost + 20 * u.length ≤ n + 1 + 20 * v.length) :
    (Reader.arguments (n + 1)).Reaches m 0 c args v := by
  rw [Reader.arguments]
  cases h with
  | noArguments =>
    refine ⟨c.rest, hc.rest, rfl, ?_⟩
    exact meets_gives_bind (gives_accept_true hc.at) rfl (meets_of_gives gives_pure_self)
  | someArguments hparen h =>
    obtain ⟨c₁, h₁, hd₁, hm₁⟩ := ih h hc (Nat.zero_le _) (by grind)
    refine ⟨c₁, h₁, hd₁, ?_⟩
    exact meets_gives_bind (gives_accept_false (hc.at.notAt hparen)) rfl hm₁

theorem reaches_argumentsAfter {args : List Expr} (h : Parses (.argumentsAfter args) m u v)
    (hc : c.Ahead u)
    (hn : (Phrase.argumentsAfter args).cost + 20 * u.length ≤ n + 1 + 20 * v.length) :
    (Reader.argumentsAfter (n + 1)).Reaches m 0 c args v := by
  rw [Reader.argumentsAfter]
  cases h with
  | moreArguments ha h =>
    obtain ⟨c₁, h₁, hd₁, hm₁⟩ := ih ha hc (Nat.zero_le _) (by grind)
    obtain ⟨c₂, h₂, hd₂, hm₂⟩ := ih h h₁.rest (Nat.zero_le _) (by grind)
    refine ⟨c₂, h₂, by grind, ?_⟩
    refine meets_bind hm₁ hd₁ (meets_gives_bind (gives_accept_true h₁.at) rfl ?_)
    exact meets_bind_gives hm₂ hd₂ gives_pure_self
  | lastArgument ha =>
    obtain ⟨c₁, h₁, hd₁, hm₁⟩ := ih ha hc (Nat.zero_le _) (by grind)
    refine ⟨c₁.rest, h₁.rest, hd₁, ?_⟩
    refine meets_bind_gives hm₁ hd₁ (gives_bind.mpr ⟨_, _, gives_accept_false ?_, ?_⟩)
    · exact h₁.at.notAt (by simp)
    · exact gives_expect_pure h₁.at

/-! ### Primaries and constructions -/

theorem reaches_primary {e : Expr} (h : Parses (.primary e) m u v) (hc : c.Ahead u)
    (hn : (Phrase.primary e).cost + 20 * u.length ≤ n + 1 + 20 * v.length) :
    (Reader.primary (n + 1)).Reaches m 0 c e v := by
  rw [Reader.primary]
  cases h with
  | group h =>
    obtain ⟨c₁, h₁, hd₁, hm₁⟩ := ih h hc.rest (Nat.zero_le _) (by grind)
    refine ⟨c₁.rest, h₁.rest, hd₁, meets_peek_bind hc.at fun p => meets_advance_bind ?_⟩
    exact meets_bind_gives hm₁ hd₁ (gives_expect_pure h₁.at)
  | number hv =>
    refine ⟨c.rest, hc.rest, rfl, meets_peek_bind hc.at fun p => ?_⟩
    simp only [List.head?_cons, hv]
    exact meets_advance_pure
  | text | trueWord | falseWord =>
    exact ⟨c.rest, hc.rest, rfl, meets_peek_bind hc.at fun p => meets_advance_pure⟩
  | new h =>
    obtain ⟨c₁, h₁, hd₁, hm₁⟩ := ih h hc.rest (Nat.zero_le _) (by grind)
    exact ⟨c₁, h₁, hd₁, meets_peek_bind hc.at fun p => meets_advance_bind hm₁⟩
  | ident hk =>
    obtain ⟨ht, hf, hnew, hif⟩ := ne_of_isKeyword hk
    refine ⟨c.rest, hc.rest, rfl, meets_peek_bind hc.at fun p => ?_⟩
    simp only [List.head?_cons, if_neg ht, if_neg hf, if_neg hnew, if_neg hif]
    exact meets_advance_pure

theorem reaches_construction {e : Expr} (h : Parses (.construction e) m u v) (hc : c.Ahead u)
    (hn : (Phrase.construction e).cost + 20 * u.length ≤ n + 1 + 20 * v.length) :
    (Reader.construction (n + 1)).Reaches m 0 c e v := by
  rw [Reader.construction]
  cases h with
  | construction hp h =>
    obtain ⟨c₁, h₁, hd₁, hm₁⟩ := ih hp hc.deeper (Nat.zero_le _) (by grind)
    obtain ⟨c₂, h₂, hd₂, hm₂⟩ := ih h h₁ (by grind) (by grind)
    refine ⟨c₂, h₂, by grind, ?_⟩
    exact meets_deepen_bind hc.at (meets_bind hm₁ hd₁ hm₂)

theorem reaches_constructionChain {held : Nat} {callee e : Expr}
    (h : Parses (.constructionChain callee held e) m u v) (hc : c.Ahead u) (hheld : held ≤ c.depth)
    (hn : (Phrase.constructionChain callee held e).cost + 20 * u.length ≤ n + 1 + 20 * v.length) :
    (Reader.constructionChain (n + 1) callee held).Reaches m held c e v := by
  rw [Reader.constructionChain]
  cases h with
  | constructionStep hp h =>
    obtain ⟨c₁, h₁, hd₁, hm₁⟩ := ih hp hc (Nat.zero_le _) (by grind)
    obtain ⟨c₂, h₂, hd₂, hm₂⟩ := ih h h₁.deeper (by grind) (by grind)
    refine ⟨c₂, h₂, by grind, ?_⟩
    exact meets_bind hm₁ hd₁ (meets_deepen_bind h₁.at hm₂)
  | @constructionEnd _ _ held _ _ _ ha =>
    obtain ⟨c₁, h₁, hd₁, hm₁⟩ :=
      ih (.noProperty (by simp) (by simp)) hc (Nat.zero_le _) (by grind)
    obtain ⟨c₂, h₂, hd₂, hm₂⟩ := ih ha h₁.rest (Nat.zero_le _) (by grind)
    refine ⟨c₂.release held, h₂.release held, by grind, ?_⟩
    refine meets_gives_bind (hm₁.1 (Or.inl rfl)) hd₁ (meets_expect_bind h₁.at ?_)
    exact meets_bind_gives hm₂ hd₂ (gives_release_pure_self held)

end

/-! ## All routines -/

/-- **The routines read lexemes as the rules do**, if the allowance suffices and there are levels to
spare. -/
theorem reaches_of_parses {n : Nat} {φ : Phrase} {m : Nat} {u v : List Lexeme} (h : Parses φ m u v)
    {c : Cursor} (hc : c.Ahead u) (hheld : φ.held ≤ c.depth)
    (hn : φ.cost + 20 * u.length ≤ n + 20 * v.length) : φ.Reaches n m c v := by
  induction n generalizing φ m u v c with
  | zero =>
    have hlength := h.length_le
    have hcost := φ.production.cost_pos
    unfold Phrase.cost at hn
    omega
  | succ n ih =>
    cases φ with
    | statements => exact reaches_statements @ih h hc hn
    | statement => exact reaches_statement @ih h hc hn
    | statementBody => exact reaches_statementBody @ih h hc hn
    | conditionalStatement => exact reaches_conditionalStatement @ih h hc hn
    | branch => exact reaches_branch @ih h hc hn
    | expression => exact reaches_expression @ih h hc hn
    | binary => exact reaches_binary @ih h hc hn
    | binaryChain => exact reaches_binaryChain @ih h hc hheld hn
    | unary => exact reaches_unary @ih h hc hn
    | application => exact reaches_application @ih h hc hn
    | applicationChain => exact reaches_applicationChain @ih h hc hheld hn
    | property => exact reaches_property @ih h hc hn
    | primary => exact reaches_primary @ih h hc hn
    | construction => exact reaches_construction @ih h hc hn
    | constructionChain => exact reaches_constructionChain @ih h hc hheld hn
    | arguments => exact reaches_arguments @ih h hc hn
    | argumentsAfter => exact reaches_argumentsAfter @ih h hc hn

/-! ## Whole texts -/

theorem Cursor.ending_of_at_none {c : Cursor} (h : c.At none) : ∃ p, c.ending = .complete p := by
  obtain ⟨p, hp⟩ := h
  unfold front? at hp
  split at hp
  · cases hp
  next heq => exact ⟨_, heq⟩
  · cases hp

variable {source : String} {ss : List Stmt} {ls : List Lexeme} {m : Nat}

theorem meets_of_yields (hy : (scan source).Yields ls)
    (h : Parses (.statements none ss) m ls []) : ∃ c',
      (Reader.statements (readingAllowance (scan source).tokens.length) none).Meets m
        (scan source).cursor ss c' := by
  have hlength : ls.length = (scan source).tokens.length := by
    rw [← hy.1, List.length_map]
    rfl
  obtain ⟨c', -, -, hmeets⟩ := reaches_of_parses
    (n := readingAllowance (scan source).tokens.length) h hy (Nat.zero_le _) (by
      simp only [Phrase.cost, Phrase.production, Production.cost, readingAllowance,
        List.length_nil]
      omega)
  exact ⟨c', hmeets⟩

theorem spares_cursor {s : Scan} : s.cursor.Spares m ↔ m ≤ maxNesting := by
  simp only [Cursor.Spares, Scan.cursor]
  omega

/-- **A text whose lexemes need too many levels is nested too deeply.** -/
theorem parse_eq_error_of_parses (hy : (scan source).Yields ls)
    (h : Parses (.statements none ss) m ls []) (hm : maxNesting < m) :
    ∃ p, parse source = .error (.grammatical p .nestedTooDeeply) := by
  obtain ⟨c', hmeets⟩ := meets_of_yields hy h
  obtain ⟨p, hp⟩ := hmeets.2 fun hspares => absurd (spares_cursor.mp hspares) (by omega)
  refine ⟨p, ?_⟩
  unfold parse
  simp only [hp]

/-- **A text is read exactly if its lexemes are**, with levels that may be held. -/
theorem parse_eq_ok_iff_parses : parse source = .ok ss ↔
    ∃ ls, (scan source).Yields ls ∧ ∃ m ≤ maxNesting, Parses (.statements none ss) m ls [] := by
  constructor
  · intro h
    unfold parse at h
    dsimp only at h
    split at h
    next ss' c' hrun =>
      cases h
      have hnone := at_closing_of_gives hrun
      obtain ⟨p, hp⟩ := c'.ending_of_at_none hnone
      have hstatements : (Phrase.statements none ss).Run
        (readingAllowance (scan source).tokens.length) (scan source).cursor c' := hrun
      obtain ⟨⟨m, hm, hparses⟩, -, hending⟩ := parsed_of_run hstatements (Nat.zero_le _)
      have hnil : c'.lexemes = [] := by
        rw [Cursor.lexemes, Cursor.tokens_of_at_none hnone, List.map_nil]
      rw [hnil] at hparses
      exact ⟨_, ⟨rfl, p, hending.symm.trans hp⟩, m, spares_cursor.mp hm, hparses⟩
    · cases h
    · cases h
  · rintro ⟨ls, hy, m, hm, h⟩
    obtain ⟨c', hmeets⟩ := meets_of_yields hy h
    have hgives := hmeets.1 (spares_cursor.mpr hm)
    unfold Reader.Gives at hgives
    unfold parse
    simp only [hgives]

theorem parse_eq_ok_or_error (hy : (scan source).Yields ls)
    (h : Parses (.statements none ss) m ls []) :
    parse source = .ok ss ∨ ∃ p, parse source = .error (.grammatical p .nestedTooDeeply) := by
  rcases Nat.lt_or_ge maxNesting m with hlt | hle
  · exact Or.inr (parse_eq_error_of_parses hy h hlt)
  · exact Or.inl (parse_eq_ok_iff_parses.mpr ⟨ls, hy, m, hle, h⟩)

end Isa16
