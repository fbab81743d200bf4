import Isa16.Proofs.Program.Productions

/-!
# Reading regardless of places

* `Cursor.Matches`: two places with the same lexemes ahead and as many levels held.
* `Reader.Alike`: two steps that do the same from matching places; if they stop, then at different
  places maybe, but for the same reason.
* `Reader.Placeless`: a step that does the same wherever its tokens stand. So do the routines, by
  one lemma for each (`Production.placeless_read`).
* **`sameReading_of_yields`**: what a text is read as depends on its lexemes alone.
-/

namespace Isa16

/-- The same lexemes lie ahead, up to the end of the text, and as many levels are held. -/
def Cursor.Matches (c d : Cursor) : Prop :=
  c.depth = d.depth ∧ ∃ ls, c.Ahead ls ∧ d.Ahead ls

namespace Reader

variable {α β : Type}

/-- Two results that differ in places at most. -/
inductive SameResult : Except Halt (α × Cursor) → Except Halt (α × Cursor) → Prop
  | ok {a : α} {c d : Cursor} (h : c.Matches d) : SameResult (.ok (a, c)) (.ok (a, d))
  | fault (p q : Position) (f : ParseFault) :
    SameResult (.error (.fault (.grammatical p f))) (.error (.fault (.grammatical q f)))
  | exhausted : SameResult (.error .exhausted) (.error .exhausted)

/-- From matching places the two steps have results that differ in places at most. -/
def Alike (x y : Reader α) : Prop :=
  ∀ ⦃c d : Cursor⦄, c.Matches d → SameResult (x.run c) (y.run d)

/-- The step does the same wherever its tokens stand. -/
def Placeless (x : Reader α) : Prop :=
  Alike x x

variable {x y : Reader α} {f : α → Reader β}

/-! ## Steps -/

theorem placeless_bind (hx : Placeless x) (hf : ∀ a, Placeless (f a)) : Placeless (x >>= f) := by
  intro c d hcd
  have h := hx hcd
  rw [StateT.run_bind, StateT.run_bind]
  generalize x.run c = r, x.run d = s at h
  cases h with
  | ok hcd => exact hf _ hcd
  | fault p q f => exact .fault p q f
  | exhausted => exact .exhausted

theorem placeless_pure (a : α) : Placeless (pure a) :=
  fun _ _ h => .ok h

theorem placeless_exhausted : Placeless (throw .exhausted : Reader α) :=
  fun _ _ _ => .exhausted

/-- The place of a fault makes no difference. -/
theorem alike_fail (p q : Position) (fault : ParseFault) :
    Alike (fail p fault : Reader α) (fail q fault) :=
  fun _ _ _ => .fault p q fault

/-- A look at the next token shows the same lexeme, at another place maybe. -/
theorem placeless_peek_bind {f : Option Lexeme × Position → Reader β}
    (hf : ∀ l p q, Alike (f (l, p)) (f (l, q))) : Placeless (peek >>= f) := by
  intro c d h
  obtain ⟨ls, hc, hd⟩ := h.2
  obtain ⟨p, hp⟩ := hc.at
  obtain ⟨q, hq⟩ := hd.at
  have hpeek : peek.run c = .ok ((ls.head?, p), c) := gives_peek.mpr ⟨hp, rfl⟩
  have hpeek' : peek.run d = .ok ((ls.head?, q), d) := gives_peek.mpr ⟨hq, rfl⟩
  rw [StateT.run_bind, StateT.run_bind, hpeek, hpeek']
  exact hf ls.head? p q h

theorem placeless_advance : Placeless advance := by
  rintro c d ⟨hdepth, ls, hc, hd⟩
  refine .ok ⟨hdepth, ls.tail, ?_, ?_⟩
  · exact ⟨by rw [← hc.1, List.map_tail], hc.2⟩
  · exact ⟨by rw [← hd.1, List.map_tail], hd.2⟩

theorem placeless_advance_pure (a : α) : Placeless (do advance; return a) :=
  placeless_bind placeless_advance fun _ => placeless_pure a

theorem placeless_release (k : Nat) : Placeless (release k) :=
  fun _ _ ⟨hdepth, h⟩ => .ok ⟨congrArg (· - k) hdepth, h⟩

theorem placeless_release_pure (k : Nat) (a : α) : Placeless (do release k; return a) :=
  placeless_bind (placeless_release k) fun _ => placeless_pure a

theorem placeless_ite {p : Prop} [Decidable p] (hx : Placeless x) (hy : Placeless y) :
    Placeless (if p then x else y) := by
  split_ifs
  · exact hx
  · exact hy

theorem placeless_accept (s : Symbol) : Placeless (accept s) :=
  placeless_peek_bind fun _ _ _ =>
    placeless_ite (placeless_advance_pure true) (placeless_pure false)

theorem placeless_expect (s : Symbol) (what : Expectation) : Placeless (expect s what) := by
  refine placeless_peek_bind fun l p q => ?_
  dsimp only
  split_ifs
  · exact placeless_advance
  · exact alike_fail p q _

theorem placeless_expect_pure (s : Symbol) (what : Expectation) (a : α) :
    Placeless (do expect s what; return a) :=
  placeless_bind (placeless_expect s what) fun _ => placeless_pure a

theorem placeless_propertyName : Placeless propertyName := by
  refine placeless_peek_bind fun l p q => ?_
  dsimp only
  split
  · exact placeless_advance_pure _
  · exact alike_fail p q _

theorem placeless_atWord (word : String) : Placeless (atWord word) :=
  placeless_peek_bind fun _ _ _ => placeless_pure _

theorem placeless_atClosing (closing : Option Symbol) : Placeless (atClosing closing) :=
  placeless_peek_bind fun _ _ _ => placeless_pure _

theorem placeless_operator? {γ : Type} (classify : Option Lexeme → Option γ) :
    Placeless (operator? classify) := by
  refine placeless_peek_bind fun l _ _ => ?_
  dsimp only
  split
  · exact placeless_advance_pure _
  · exact placeless_pure none

theorem placeless_infixOperator? (level : Nat) : Placeless (infixOperator? level) :=
  infixOperator?_eq level ▸ placeless_operator? _

theorem placeless_unaryOperator? : Placeless unaryOperator? :=
  unaryOperator?_eq ▸ placeless_operator? _

/-- Stops because too many levels are held. -/
def refuse : Reader Unit := do
  let (_, position) ← peek
  fail position .nestedTooDeeply

theorem run_deepen_of_not_lt {c : Cursor} (hc : ¬ c.depth < maxNesting) :
    deepen.run c = refuse.run c := by
  unfold deepen
  rw [StateT.run_bind]
  show StateT.run (if c.depth < maxNesting then _ else refuse) c = _
  rw [if_neg hc]

theorem placeless_refuse : Placeless refuse :=
  placeless_peek_bind fun _ p q => alike_fail p q _

/-- Whether one more level may be held depends on the levels that are held. -/
theorem placeless_deepen : Placeless deepen := by
  intro c d h
  by_cases hc : c.depth < maxNesting
  · have hd : d.depth < maxNesting := h.1 ▸ hc
    have hrun : deepen.run c = .ok ((), c.deeper) := gives_deepen.mpr ⟨hc, rfl⟩
    have hrun' : deepen.run d = .ok ((), d.deeper) := gives_deepen.mpr ⟨hd, rfl⟩
    rw [hrun, hrun']
    exact .ok ⟨congrArg (· + 1) h.1, h.2⟩
  · have hd : ¬ d.depth < maxNesting := h.1 ▸ hc
    rw [run_deepen_of_not_lt hc, run_deepen_of_not_lt hd]
    exact placeless_refuse h

theorem placeless_separator (closing : Option Symbol) (s : Stmt) :
    Placeless (separator closing s) := by
  refine placeless_ite (placeless_pure ()) ?_
  refine placeless_bind (placeless_atClosing closing) fun _ => ?_
  exact placeless_ite (placeless_pure ()) (placeless_expect _ _)

end Reader

/-! ## The routines -/

namespace Production

open Reader

section

variable {call : (p : Production) → Reader p.Result} (h : ∀ p, Placeless (call p))

include h

/-! ### Statements -/

theorem placeless_statements (closing : Option Symbol) :
    Placeless ((statements closing).body ⟨id, Reader.release, call⟩) := by
  refine placeless_bind (placeless_atClosing closing) fun _ => placeless_ite (placeless_pure _) ?_
  refine placeless_bind (placeless_accept _) fun _ => placeless_ite (h (.statements closing)) ?_
  refine placeless_bind (h .statement) fun s => placeless_bind (placeless_separator closing s) ?_
  exact fun _ => placeless_bind (h (.statements closing)) fun _ => placeless_pure _

theorem placeless_statement : Placeless (statement.body ⟨id, Reader.release, call⟩) := by
  refine placeless_bind placeless_deepen fun _ => placeless_bind (h .statementBody) fun _ => ?_
  exact placeless_release_pure 1 _

theorem placeless_statementBody : Placeless (statementBody.body ⟨id, Reader.release, call⟩) := by
  refine placeless_bind (placeless_atWord _) fun _ => placeless_ite (h .conditionalStatement) ?_
  refine placeless_bind (h .expression) fun e => ?_
  refine placeless_bind (placeless_accept _) fun _ => placeless_ite ?_ (placeless_pure _)
  exact placeless_bind (h .expression) fun _ => placeless_pure _

theorem placeless_conditionalStatement :
    Placeless (conditionalStatement.body ⟨id, Reader.release, call⟩) := by
  refine placeless_bind placeless_advance fun _ => ?_
  refine placeless_bind (placeless_expect _ _) fun _ => placeless_bind (h .expression) fun _ => ?_
  refine placeless_bind (placeless_expect _ _) fun _ => ?_
  refine placeless_bind (h .branch) fun _ => placeless_bind (placeless_atWord _) fun _ => ?_
  refine placeless_ite (placeless_bind placeless_advance fun _ => ?_) (placeless_pure _)
  exact placeless_bind (h .branch) fun _ => placeless_pure _

theorem placeless_branch : Placeless (branch.body ⟨id, Reader.release, call⟩) := by
  refine placeless_bind (placeless_accept _) fun _ => placeless_ite ?_ ?_
  · exact placeless_bind (h (.statements _)) fun _ => placeless_expect_pure _ _ _
  · exact placeless_bind (h .statement) fun _ => placeless_pure _

/-! ### Expressions and operators -/

theorem placeless_expression : Placeless (expression.body ⟨id, Reader.release, call⟩) := by
  refine placeless_bind placeless_deepen fun _ => placeless_bind (h (.binary 0)) fun _ => ?_
  refine placeless_bind (placeless_accept _) fun _ => placeless_ite ?_ ?_
  · refine placeless_bind (h .expression) fun _ => placeless_bind (placeless_expect _ _) fun _ => ?_
    exact placeless_bind (h .expression) fun _ => placeless_release_pure 1 _
  · exact placeless_release_pure 1 _

theorem placeless_binary (level : Nat) :
    Placeless ((binary level).body ⟨id, Reader.release, call⟩) := by
  refine placeless_ite ?_ (h .unary)
  exact placeless_bind (h (.binary (level + 1))) fun first => h (.binaryChain level first 0)

theorem placeless_binaryChain (level : Nat) (lhs : Expr) (held : Nat) :
    Placeless ((binaryChain level lhs held).body ⟨id, Reader.release, call⟩) := by
  refine placeless_bind (placeless_infixOperator? level) fun found => ?_
  cases found with
  | some op =>
    refine placeless_bind placeless_deepen fun _ => ?_
    exact placeless_bind (h (.binary (level + 1))) fun _ => h (.binaryChain level _ _)
  | none => exact placeless_release_pure held _

theorem placeless_unary : Placeless (unary.body ⟨id, Reader.release, call⟩) := by
  refine placeless_bind placeless_unaryOperator? fun found => ?_
  cases found with
  | some op =>
    refine placeless_bind placeless_deepen fun _ => placeless_bind (h .unary) fun _ => ?_
    exact placeless_release_pure 1 _
  | none => exact h .application

/-! ### Applications and properties -/

theorem placeless_application : Placeless (application.body ⟨id, Reader.release, call⟩) :=
  placeless_bind (h .primary) fun e => h (.applicationChain e 0)

theorem placeless_applicationChain (head : Expr) (held : Nat) :
    Placeless ((applicationChain head held).body ⟨id, Reader.release, call⟩) := by
  refine placeless_bind (placeless_accept _) fun _ => placeless_ite ?_ ?_
  · refine placeless_bind placeless_deepen fun _ => placeless_bind (h .arguments) fun _ => ?_
    exact h (.applicationChain _ _)
  refine placeless_bind (h (.property head)) fun found => ?_
  cases found with
  | some head' => exact placeless_bind placeless_deepen fun _ => h (.applicationChain head' _)
  | none => exact placeless_release_pure held _

theorem placeless_property (object : Expr) :
    Placeless ((property object).body ⟨id, Reader.release, call⟩) := by
  refine placeless_bind (placeless_accept _) fun _ => placeless_ite ?_ ?_
  · exact placeless_bind placeless_propertyName fun _ => placeless_pure _
  refine placeless_bind (placeless_accept _) fun _ => placeless_ite ?_ (placeless_pure none)
  exact placeless_bind (h .expression) fun _ => placeless_expect_pure _ _ _

theorem placeless_arguments : Placeless (arguments.body ⟨id, Reader.release, call⟩) :=
  placeless_bind (placeless_accept _) fun _ =>
    placeless_ite (placeless_pure []) (h .argumentsAfter)

theorem placeless_argumentsAfter : Placeless (argumentsAfter.body ⟨id, Reader.release, call⟩) := by
  refine placeless_bind (h .expression) fun _ => placeless_bind (placeless_accept _) fun _ => ?_
  refine placeless_ite (placeless_bind (h .argumentsAfter) fun _ => placeless_pure _) ?_
  exact placeless_expect_pure _ _ _

/-! ### Primaries and constructions -/

theorem placeless_primary : Placeless (primary.body ⟨id, Reader.release, call⟩) := by
  -- The lexeme decides what is read; its place shows in the faults alone.
  refine placeless_peek_bind fun l p q => ?_
  dsimp only
  split
  · refine placeless_bind placeless_advance fun _ => placeless_bind (h .expression) fun _ => ?_
    exact placeless_expect_pure _ _ _
  next digits =>
    split
    · exact placeless_advance_pure _
    · exact alike_fail p q _
  · exact placeless_advance_pure _
  next name =>
    split_ifs
    · exact placeless_advance_pure _
    · exact placeless_advance_pure _
    · exact placeless_bind placeless_advance fun _ => h .construction
    · exact alike_fail p q _
    · exact placeless_advance_pure _
  · exact alike_fail p q _

theorem placeless_construction : Placeless (construction.body ⟨id, Reader.release, call⟩) := by
  refine placeless_bind placeless_deepen fun _ => placeless_bind (h .primary) fun callee => ?_
  exact h (.constructionChain callee 1)

theorem placeless_constructionChain (callee : Expr) (held : Nat) :
    Placeless ((constructionChain callee held).body ⟨id, Reader.release, call⟩) := by
  refine placeless_bind (h (.property callee)) fun found => ?_
  cases found with
  | some callee' => exact placeless_bind placeless_deepen fun _ => h (.constructionChain callee' _)
  | none =>
    refine placeless_bind (placeless_expect _ _) fun _ => placeless_bind (h .arguments) fun _ => ?_
    exact placeless_release_pure held _

/-! ### All routines -/

/-- Each routine is regardless of places if those that it calls are. -/
theorem placeless_body (p : Production) : Placeless (p.body ⟨id, Reader.release, call⟩) := by
  cases p with
  | statements => exact placeless_statements h _
  | statement => exact placeless_statement h
  | statementBody => exact placeless_statementBody h
  | conditionalStatement => exact placeless_conditionalStatement h
  | branch => exact placeless_branch h
  | expression => exact placeless_expression h
  | binary => exact placeless_binary h _
  | binaryChain => exact placeless_binaryChain h _ _ _
  | unary => exact placeless_unary h
  | application => exact placeless_application h
  | applicationChain => exact placeless_applicationChain h _ _
  | property => exact placeless_property h _
  | arguments => exact placeless_arguments h
  | argumentsAfter => exact placeless_argumentsAfter h
  | primary => exact placeless_primary h
  | construction => exact placeless_construction h
  | constructionChain => exact placeless_constructionChain h _ _

end

/-- **The routines do the same wherever the tokens stand.** -/
theorem placeless_read (n : Nat) (p : Production) : Placeless (p.read n) := by
  induction n generalizing p with
  | zero =>
    rw [read_zero]
    exact placeless_exhausted
  | succ n ih =>
    rw [read_succ]
    exact placeless_body ih p

end Production

/-! ## Texts -/

/-- The same statements, or the same fault in the tokens, at another place maybe. -/
inductive SameReading : Except SyntaxError (List Stmt) → Except SyntaxError (List Stmt) → Prop
  | statements (ss : List Stmt) : SameReading (.ok ss) (.ok ss)
  | fault (p q : Position) (f : ParseFault) :
    SameReading (.error (.grammatical p f)) (.error (.grammatical q f))

/-- **What a text is read as depends on its lexemes alone**, whatever their places are. -/
theorem sameReading_of_yields {source source' : String} {ls : List Lexeme}
    (h : (scan source).Yields ls) (h' : (scan source').Yields ls) :
    SameReading (parse source) (parse source') := by
  have hlength : (scan source).tokens.length = (scan source').tokens.length := by
    have hmap := congrArg List.length (h.1.trans h'.1.symm)
    rwa [List.length_map, List.length_map] at hmap
  have hmatches : (scan source).cursor.Matches (scan source').cursor := ⟨rfl, ls, h, h'⟩
  let n := readingAllowance (scan source).tokens.length
  have hroutine : (Reader.statements n none).Placeless :=
    Production.placeless_read n (.statements none)
  have hsame := hroutine hmatches
  unfold parse
  dsimp only
  rw [← hlength]
  generalize StateT.run _ (scan source).cursor = r, StateT.run _ (scan source').cursor = s at hsame
  cases hsame with
  | ok => exact .statements _
  | fault p q f => exact .fault p q f
  | exhausted => exact .fault _ _ _

end Isa16
