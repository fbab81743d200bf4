import Isa16.Proofs.Program.Balance

/-!
# Reading with a journal

* `Event`, `Recorder`: steps of reading that enter in a journal which routines are called and which
  tokens are taken, also where they stop.
* `Recorder.consume`: takes the next token, and the end of the text as well. A token that has to be
  something is taken before it is looked at, one that may be something afterwards.
* `Production.recorded`, `Production.record`: the routines with a journal. Loops are calls of the
  same routine.
* `Production.stage`: how far a routine is from the token that is taken next. Without a token, only
  later stages may be entered: `Event.next`, `stageAfter`.
* **`exists_takes_of_stageAfter`**: then a routine is entered again only behind another token.
* **`entries_le_of_stageAfter`**: then entries are at most as many as stages, for each token.
-/

namespace Isa16

/-! ## Events -/

/-- What happens while a text is read. -/
inductive Event
  /-- A routine is called, or a loop goes round. -/
  | enters (p : Production)
  /-- The next token is taken, or the end of the text, which is no token. -/
  | takes (l : Option Lexeme)

/-- What was taken, in order. -/
def taken (events : List Event) : List (Option Lexeme) :=
  events.filterMap fun
    | .takes l => some l
    | .enters _ => none

/-- The number of calls and of rounds of loops. -/
def entries (events : List Event) : Nat :=
  events.countP fun
    | .enters _ => true
    | .takes _ => false

/-! ## Steps with a journal -/

/-- A step of reading that keeps a journal, also where it stops. -/
abbrev Recorder := StateT Cursor (ExceptT Halt (StateM (List Event)))

namespace Recorder

variable {α β : Type}

/-- How the step ends, and the journal by then. -/
def outcome (x : Recorder α) (c : Cursor) (events : List Event) :
    Except Halt (α × Cursor) × List Event :=
  Id.run ((x.run c).run.run events)

/-- A step that enters nothing in the journal. -/
def quiet (x : Reader α) : Recorder α :=
  fun c => ExceptT.mk (pure (x.run c))

/-- Enters an event in the journal. -/
def note (e : Event) : Recorder Unit :=
  fun c => ExceptT.mk fun events => (.ok ((), c), events ++ [e])

/-- Takes the next token or the end of the text, behind which lies the end again. -/
def consume : Recorder (Option Lexeme × Position) := do
  let next ← quiet Reader.peek
  note (.takes next.1)
  quiet Reader.advance
  return next

/-- Takes the next token if it is the symbol, and says whether it was. -/
def accept (s : Symbol) : Recorder Bool := do
  let (found, _) ← quiet Reader.peek
  if found = some (.symbol s) then do
    let _ ← consume
    return true
  else return false

/-- Takes the next token, which has to be the symbol. -/
def expect (s : Symbol) (what : Expectation) : Recorder Unit := do
  let (found, position) ← consume
  if found = some (.symbol s) then return ()
  else quiet (Reader.fail position (.expected what found))

/-- Takes the next token, which has to be a property's name. -/
def propertyName : Recorder String := do
  let (found, position) ← consume
  match found with
  | some (.identifier name) => return name
  | _ => quiet (Reader.fail position (.expected .propertyName found))

/-- Takes the next token if it reads as an operator. -/
def operator? {γ : Type} (classify : Option Lexeme → Option γ) : Recorder (Option γ) := do
  let (found, _) ← quiet Reader.peek
  match classify found with
  | some op => do
    let _ ← consume
    return some op
  | none => return none

/-- A statement other than a conditional is followed by a separator or by the end of its block. -/
def separator (closing : Option Symbol) (s : Stmt) : Recorder Unit :=
  if s.isConditional then return ()
  else do
    if ← quiet (Reader.atClosing closing) then return () else expect .semicolon .separator

theorem outcome_quiet (x : Reader α) (c : Cursor) (events : List Event) :
    (quiet x).outcome c events = (x.run c, events) :=
  rfl

theorem outcome_note_bind (e : Event) (f : Unit → Recorder β) (c : Cursor) (events : List Event) :
    (note e >>= f).outcome c events = (f ()).outcome c (events ++ [e]) :=
  rfl

theorem outcome_bind (x : Recorder α) (f : α → Recorder β) (c : Cursor) (events : List Event) :
    (x >>= f).outcome c events =
      match x.outcome c events with
      | (.ok (a, c'), events') => (f a).outcome c' events'
      | (.error e, events') => (.error e, events') := by
  unfold outcome
  rw [StateT.run_bind, ExceptT.run_bind, StateT.run_bind, Id.run_bind]
  rcases Id.run ((x.run c).run.run events) with ⟨e | ⟨a, c'⟩, events'⟩
  · rfl
  · rfl

end Recorder

/-! ## Routines with a journal -/

namespace Production

open Recorder in
/-- What a routine does, given those that it calls. -/
def recorded (call : (p : Production) → Recorder p.Result) : (p : Production) → Recorder p.Result
  | .statements closing => do
    if ← quiet (Reader.atClosing closing) then return []
    else if ← accept .semicolon then call (.statements closing)
    else do
      let s ← call .statement
      separator closing s
      let rest ← call (.statements closing)
      return s :: rest
  | .statement => do
    quiet Reader.deepen
    let s ← call .statementBody
    quiet (Reader.release 1)
    return s
  | .statementBody => do
    if ← quiet (Reader.atWord "if") then call .conditionalStatement
    else do
      let e ← call .expression
      if ← accept .equals then do
        let value ← call .expression
        return .assign e value
      else return .expr e
  | .conditionalStatement => do
    let _ ← consume
    expect .leftParen .conditionOpen
    let condition ← call .expression
    expect .rightParen .conditionClose
    let whenTrue ← call .branch
    if ← quiet (Reader.atWord "else") then do
      let _ ← consume
      let whenFalse ← call .branch
      return .ite condition whenTrue whenFalse
    else return .ite condition whenTrue []
  | .branch => do
    if ← accept .leftBrace then do
      let body ← call (.statements (some .rightBrace))
      expect .rightBrace .blockClose
      return body
    else do
      let s ← call .statement
      return [s]
  | .expression => do
    quiet Reader.deepen
    let condition ← call (.binary 0)
    if ← accept .question then do
      let whenTrue ← call .expression
      expect .colon .alternative
      let whenFalse ← call .expression
      quiet (Reader.release 1)
      return .conditional condition whenTrue whenFalse
    else do
      quiet (Reader.release 1)
      return condition
  | .binary level =>
    if level < BinaryOp.levels then do
      let first ← call (.binary (level + 1))
      call (.binaryChain level first 0)
    else call .unary
  | .binaryChain level lhs held => do
    match ← operator? (Reader.infixOf? level) with
    | some op =>
      quiet Reader.deepen
      let rhs ← call (.binary (level + 1))
      call (.binaryChain level (.binary op lhs rhs) (held + 1))
    | none =>
      quiet (Reader.release held)
      return lhs
  | .unary => do
    match ← operator? Reader.unaryOf? with
    | some op =>
      quiet Reader.deepen
      let operand ← call .unary
      quiet (Reader.release 1)
      return .ofUnary op operand
    | none => call .application
  | .application => do
    let e ← call .primary
    call (.applicationChain e 0)
  | .applicationChain e held => do
    if ← accept .leftParen then do
      quiet Reader.deepen
      let args ← call .arguments
      call (.applicationChain (.call e args) (held + 1))
    else do
      match ← call (.property e) with
      | some e' =>
        quiet Reader.deepen
        call (.applicationChain e' (held + 1))
      | none =>
        quiet (Reader.release held)
        return e
  | .property object => do
    if ← accept .dot then do
      let name ← propertyName
      return some (.member object name)
    else if ← accept .leftBracket then do
      let key ← call .expression
      expect .rightBracket .indexClose
      return some (.index object key)
    else return none
  | .primary => do
    let (found, position) ← consume
    match found with
    | some (.symbol .leftParen) =>
      let e ← call .expression
      expect .rightParen .groupClose
      return e
    | some (.number digits) =>
      match numeralValue? digits.toList with
      | some value => return .int value
      | none => quiet (Reader.fail position (.numberTooLarge digits))
    | some (.text contents) => return .text contents
    | some (.identifier name) =>
      if name = "true" then return .bool true
      else if name = "false" then return .bool false
      else if name = "new" then call .construction
      else if name = "if" ∨ name = "else" then quiet (Reader.fail position (.keyword name))
      else return .ident name
    | _ => quiet (Reader.fail position (.noExpression found))
  | .construction => do
    quiet Reader.deepen
    let callee ← call .primary
    call (.constructionChain callee 1)
  | .constructionChain callee held => do
    match ← call (.property callee) with
    | some callee' =>
      quiet Reader.deepen
      call (.constructionChain callee' (held + 1))
    | none =>
      expect .leftParen .constructorOpen
      let args ← call .arguments
      quiet (Reader.release held)
      return .construct callee args
  | .arguments => do
    if ← accept .rightParen then return [] else call .argumentsAfter
  | .argumentsAfter => do
    let arg ← call .expression
    if ← accept .comma then do
      let rest ← call .argumentsAfter
      return arg :: rest
    else do
      expect .rightParen .argumentsClose
      return [arg]

/-- A routine with a journal and an allowance. -/
def record : Nat → (p : Production) → Recorder p.Result
  | 0, _ => Recorder.quiet (throw .exhausted)
  | n + 1, p => do
    Recorder.note (.enters p)
    p.recorded (record n)

/-! ## Stages -/

/-- The routine without its data: two productions are one routine, or one loop, at one level. -/
def bare : Production → Production
  | statements _ => statements none
  | binaryChain level _ _ => binaryChain level (.bool true) 0
  | applicationChain _ _ => applicationChain (.bool true) 0
  | property _ => property (.bool true)
  | constructionChain _ _ => constructionChain (.bool true) 0
  | p => p

/-- The order in which routines follow each other as long as no token is taken: first what may go
on with the operand behind which a token was taken, from the tightest routine to the loosest, then
what a statement or an expression begins with, from the loosest to the tightest. -/
@[simp]
def stage : Production → Nat
  | applicationChain _ _ | constructionChain _ _ => 1
  | property _ => 2
  | binaryChain level _ _ => 2 + (BinaryOp.levels - level)
  | statements _ => 13
  | branch => 14
  | statement => 15
  | statementBody => 16
  | conditionalStatement => 17
  | arguments => 18
  | argumentsAfter => 19
  | expression => 20
  | binary level => 31 - (BinaryOp.levels - level)
  | unary => 32
  | application => 33
  | construction => 34
  | primary => 35

theorem stage_le (p : Production) : p.stage ≤ 35 := by
  cases p <;> simp only [stage, BinaryOp.levels] <;> omega

theorem stage_bare (p : Production) : p.bare.stage = p.stage := by
  cases p <;> rfl

end Production

/-- The stage behind an event. A token sets it back; else it may only rise. -/
def Event.next (s : Nat) : Event → Option Nat
  | enters p => if s < p.stage then some p.stage else none
  | takes (some _) => some 0
  | takes none => some s

/-- The stage behind events, if it never fell without a token. -/
def stageAfter (s : Nat) (events : List Event) : Option Nat :=
  events.foldlM Event.next s

section

variable {s s' : Nat} {e : Event} {events events' : List Event} {p q : Production}

theorem stageAfter_cons : stageAfter s (e :: events) = some s' ↔
    ∃ s₁, e.next s = some s₁ ∧ stageAfter s₁ events = some s' := by
  rw [stageAfter, List.foldlM_cons]
  exact Option.bind_eq_some_iff

theorem stageAfter_append : stageAfter s (events ++ events') = some s' ↔
    ∃ s₁, stageAfter s events = some s₁ ∧ stageAfter s₁ events' = some s' := by
  rw [stageAfter, List.foldlM_append]
  exact Option.bind_eq_some_iff

theorem stageAfter_snoc : stageAfter s (events ++ [e]) = some s' ↔
    ∃ s₁, stageAfter s events = some s₁ ∧ e.next s₁ = some s' := by
  rw [stageAfter_append]
  refine exists_congr fun s₁ => and_congr_right fun _ => ?_
  rw [stageAfter_cons]
  constructor
  · rintro ⟨s₂, hnext, h⟩
    cases h
    exact hnext
  · exact fun h => ⟨s', h, rfl⟩

theorem next_enters : (Event.enters p).next s = some s' ↔ s < p.stage ∧ s' = p.stage := by
  unfold Event.next
  rw [Option.ite_none_right_eq_some, Option.some_inj, eq_comm (a := s')]

theorem le_of_stageAfter (h : stageAfter s events = some s')
    (hnone : ∀ l, .takes (some l) ∉ events) : s ≤ s' := by
  induction events generalizing s with
  | nil =>
    cases h
    exact le_rfl
  | cons e events ih =>
    obtain ⟨s₁, hnext, hrest⟩ := stageAfter_cons.mp h
    have hle := ih hrest fun l hl => hnone l (List.mem_cons_of_mem _ hl)
    cases e with
    | enters p =>
      obtain ⟨hlt, rfl⟩ := next_enters.mp hnext
      exact hlt.le.trans hle
    | takes l =>
      cases l with
      | none =>
        cases hnext
        exact hle
      | some l => exact absurd List.mem_cons_self (hnone l)

/-- **A routine is entered again only behind another token.** -/
theorem exists_takes_of_stageAfter {older between newer : List Event}
    (h : stageAfter 0 (older ++ .enters p :: (between ++ .enters q :: newer)) = some s)
    (hpq : p.bare = q.bare) : ∃ l, .takes (some l) ∈ between := by
  by_contra hnone
  have hstage : p.stage = q.stage := by
    rw [← p.stage_bare, hpq, q.stage_bare]
  obtain ⟨s₀, -, h⟩ := stageAfter_append.mp h
  obtain ⟨s₁, hp, h⟩ := stageAfter_cons.mp h
  obtain ⟨s₂, hbetween, h⟩ := stageAfter_append.mp h
  obtain ⟨s₃, hq, -⟩ := stageAfter_cons.mp h
  obtain ⟨-, rfl⟩ := next_enters.mp hp
  have hle := le_of_stageAfter hbetween (not_exists.mp hnone)
  have hlt := (next_enters.mp hq).1
  omega

/-- **Entries are at most as many as stages**, once and for each token. -/
theorem entries_le_of_stageAfter (h : stageAfter s events = some s') (hs : s ≤ 35) :
    s' ≤ 35 ∧ entries events + s ≤ 35 * (taken events).countP Option.isSome + s' := by
  induction events generalizing s with
  | nil =>
    cases h
    exact ⟨hs, by simp [entries]⟩
  | cons e events ih =>
    obtain ⟨s₁, hnext, hrest⟩ := stageAfter_cons.mp h
    cases e with
    | enters p =>
      obtain ⟨hlt, rfl⟩ := next_enters.mp hnext
      obtain ⟨hs', hle⟩ := ih hrest p.stage_le
      refine ⟨hs', ?_⟩
      simp only [entries, taken, List.countP_cons, List.filterMap_cons] at hle ⊢
      simp only [if_true]
      omega
    | takes l =>
      cases l with
      | none =>
        cases hnext
        obtain ⟨hs', hle⟩ := ih hrest hs
        refine ⟨hs', ?_⟩
        simpa [entries, taken, List.countP_cons, List.filterMap_cons] using hle
      | some l =>
        cases hnext
        obtain ⟨hs', hle⟩ := ih hrest (Nat.zero_le _)
        refine ⟨hs', ?_⟩
        simp only [entries, taken, List.countP_cons, List.filterMap_cons] at hle ⊢
        simp only [Option.isSome_some, if_true, Bool.false_eq_true, if_false]
        omega

end

end Isa16
