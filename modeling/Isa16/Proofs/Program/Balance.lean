import Isa16.Proofs.Program.Productions

/-!
# The count of levels

* `Watched`: steps of reading that note how many levels are held, also where they stop.
  `Production.watch`: a routine under watch.
* `Reader.KeepsDepth`: a step that leaves the levels alone.
* `Follows`: a step under watch ends as the plain one does, with sound notes, and leaves so many
  levels of those that it found. `Production.BodyFollows`: a routine does so if those that it calls
  do, by one lemma for each.
* **`Production.watch_sound`**: every routine gives back exactly the levels that it claims. None are
  ever given back that are not held, and no more are held than are allowed.
-/

namespace Isa16

/-! ## Notes -/

/-- What is noted about the levels of nesting. -/
inductive Tally
  /-- So many are held. -/
  | held (depth : Nat)
  /-- Of so many that are held, levels are to be given back. -/
  | returned (depth levels : Nat)
  deriving DecidableEq

/-- A step of reading that takes notes of the levels, also where it stops. -/
abbrev Watched := StateT Cursor (ExceptT Halt (StateM (List Tally)))

namespace Watched

variable {α : Type}

/-- How the step ends, and the notes by then. -/
def outcome (x : Watched α) (c : Cursor) (notes : List Tally) :
    Except Halt (α × Cursor) × List Tally :=
  Id.run ((x.run c).run.run notes)

/-- A step of which no note is taken. -/
def unseen (x : Reader α) : Watched α :=
  fun c => ExceptT.mk (pure (x.run c))

/-- Takes a note of the levels that are held. -/
def note (tally : Nat → Tally) : Watched Unit :=
  fun c => ExceptT.mk fun notes => (.ok ((), c), notes ++ [tally c.depth])

/-- The levels that are held behind a step are noted. -/
def step (x : Reader α) : Watched α := do
  let a ← unseen x
  note .held
  return a

/-- The levels that are held are noted in front of a release, too. -/
def release (levels : Nat) : Watched Unit := do
  note (.returned · levels)
  step (Reader.release levels)

end Watched

/-- A routine under watch, with an allowance. -/
def Production.watch : Nat → (p : Production) → Watched p.Result
  | 0, _ => Watched.unseen (throw .exhausted)
  | n + 1, p => p.body ⟨Watched.step, Watched.release, watch n⟩

/-! ## Steps that leave the levels alone -/

namespace Reader

variable {α β : Type} {x : Reader α} {f : α → Reader β}

/-- Where the step succeeds, as many levels are held behind it as before it. -/
def KeepsDepth (x : Reader α) : Prop :=
  ∀ ⦃c : Cursor⦄ ⦃a : α⦄ ⦃c' : Cursor⦄, x.Gives c a c' → c'.depth = c.depth

theorem keepsDepth_bind (hx : KeepsDepth x) (hf : ∀ a, KeepsDepth (f a)) :
    KeepsDepth (x >>= f) := by
  intro c b c' h
  obtain ⟨a, c₁, h₁, h₂⟩ := gives_bind.mp h
  rw [hf a h₂, hx h₁]

theorem keepsDepth_pure (a : α) : KeepsDepth (pure a) := by
  intro c b c' h
  rw [(gives_pure.mp h).2]

theorem keepsDepth_fail (p : Position) (fault : ParseFault) :
    KeepsDepth (fail p fault : Reader α) :=
  fun _ _ _ h => absurd h not_gives_fail

theorem keepsDepth_peek : KeepsDepth peek := by
  intro c r c' h
  rw [(gives_peek.mp h).2]

theorem keepsDepth_advance : KeepsDepth advance := by
  intro c u c' h
  rw [gives_advance.mp h, Cursor.rest_depth]

theorem keepsDepth_accept (s : Symbol) : KeepsDepth (accept s) := by
  intro c b c' h
  rcases gives_accept.mp h with ⟨-, -, rfl⟩ | ⟨-, -, rfl⟩
  · rfl
  · rfl

theorem keepsDepth_expect (s : Symbol) (what : Expectation) : KeepsDepth (expect s what) := by
  intro c u c' h
  obtain ⟨-, rfl⟩ := gives_expect.mp h
  rfl

theorem keepsDepth_propertyName : KeepsDepth propertyName := by
  intro c name c' h
  obtain ⟨-, rfl⟩ := gives_propertyName.mp h
  rfl

theorem keepsDepth_atWord (word : String) : KeepsDepth (atWord word) :=
  keepsDepth_bind keepsDepth_peek fun _ => keepsDepth_pure _

theorem keepsDepth_atClosing (closing : Option Symbol) : KeepsDepth (atClosing closing) :=
  keepsDepth_bind keepsDepth_peek fun _ => keepsDepth_pure _

theorem keepsDepth_operator? {γ : Type} (classify : Option Lexeme → Option γ) :
    KeepsDepth (operator? classify) := by
  refine keepsDepth_bind keepsDepth_peek fun (l, _) => ?_
  dsimp only
  split
  · exact keepsDepth_bind keepsDepth_advance fun _ => keepsDepth_pure _
  · exact keepsDepth_pure none

theorem keepsDepth_infixOperator? (level : Nat) : KeepsDepth (infixOperator? level) :=
  infixOperator?_eq level ▸ keepsDepth_operator? _

theorem keepsDepth_unaryOperator? : KeepsDepth unaryOperator? :=
  unaryOperator?_eq ▸ keepsDepth_operator? _

theorem keepsDepth_separator (closing : Option Symbol) (s : Stmt) :
    KeepsDepth (separator closing s) := by
  unfold separator
  split_ifs
  · exact keepsDepth_pure ()
  · refine keepsDepth_bind (keepsDepth_atClosing closing) fun atEnd => ?_
    cases atEnd with
    | true => exact keepsDepth_pure ()
    | false => exact keepsDepth_expect _ _

end Reader

/-! ## Sound notes -/

open Reader Watched

variable {α β : Type} {limit j k l : Nat}

/-- No more levels are held than so many, and none are given back that are not held. -/
def Tally.Sound (limit : Nat) : Tally → Prop
  | held depth => depth ≤ limit
  | returned depth levels => levels ≤ depth

/-- The notes are sound. -/
def SoundNotes (limit : Nat) (notes : List Tally) : Prop :=
  ∀ t ∈ notes, t.Sound limit

/-- Levels are held above a base, and no more than so many. -/
structure Cursor.Holds (limit base k : Nat) (c : Cursor) : Prop where
  above : c.depth = base + k
  le : c.depth ≤ limit

theorem Cursor.holds_add_iff {base : Nat} {c : Cursor} :
    c.Holds limit (base + k) 0 ↔ c.Holds limit base k :=
  ⟨fun h => ⟨h.above, h.le⟩, fun h => ⟨h.above, h.le⟩⟩

theorem Cursor.Holds.release {base : Nat} {c : Cursor} (h : c.Holds limit base k) :
    (c.release k).Holds limit base 0 :=
  ⟨Nat.sub_eq_of_eq_add h.above, (Nat.sub_le _ _).trans h.le⟩

/-- The step under watch ends as the plain one does, with sound notes. It finds `k` levels above
some base and leaves `l`. -/
def Follows (limit k l : Nat) (x : Watched α) (y : Reader α) : Prop :=
  ∀ ⦃base : Nat⦄ ⦃c : Cursor⦄ ⦃notes : List Tally⦄, c.Holds limit base k → SoundNotes limit notes →
    ∃ notes', x.outcome c notes = (y.run c, notes') ∧ SoundNotes limit notes' ∧
      ∀ ⦃a : α⦄ ⦃c' : Cursor⦄, y.Gives c a c' → c'.Holds limit base l

theorem SoundNotes.snoc {notes : List Tally} {t : Tally} (h : SoundNotes limit notes)
    (ht : t.Sound limit) : SoundNotes limit (notes ++ [t]) := by
  intro t' ht'
  rcases List.mem_append.mp ht' with hmem | hmem
  · exact h t' hmem
  · rwa [List.mem_singleton.mp hmem]

theorem outcome_unseen (x : Reader α) (c : Cursor) (notes : List Tally) :
    (unseen x).outcome c notes = (x.run c, notes) :=
  rfl

theorem outcome_bind (x : Watched α) (f : α → Watched β) (c : Cursor) (notes : List Tally) :
    (x >>= f).outcome c notes =
      match x.outcome c notes with
      | (.ok (a, c'), notes') => (f a).outcome c' notes'
      | (.error e, notes') => (.error e, notes') := by
  unfold outcome
  rw [StateT.run_bind, ExceptT.run_bind, StateT.run_bind, Id.run_bind]
  rcases Id.run ((x.run c).run.run notes) with ⟨e | ⟨a, c'⟩, notes'⟩
  · rfl
  · rfl

theorem follows_bind {x : Watched α} {y : Reader α} {f : α → Watched β} {g : α → Reader β}
    (hx : Follows limit j k x y) (hf : ∀ a, Follows limit k l (f a) (g a)) :
    Follows limit j l (x >>= f) (y >>= g) := by
  intro base c notes hc hnotes
  obtain ⟨notes₁, hrun, hnotes₁, hgives⟩ := hx hc hnotes
  rw [outcome_bind, hrun, StateT.run_bind]
  cases hy : y.run c with
  | error e =>
    refine ⟨notes₁, rfl, hnotes₁, fun b c' h => ?_⟩
    obtain ⟨a, c₁, h₁, -⟩ := gives_bind.mp h
    cases hy.symm.trans h₁
  | ok r =>
    obtain ⟨a, c₁⟩ := r
    obtain ⟨notes', hrun', hnotes', hgives'⟩ := hf a (hgives hy) hnotes₁
    refine ⟨notes', hrun', hnotes', fun b c' h => ?_⟩
    obtain ⟨a', c₁', h₁, h₂⟩ := gives_bind.mp h
    cases hy.symm.trans h₁
    exact hgives' h₂

theorem follows_pure (a : α) : Follows limit k k (pure a) (pure a) := by
  intro base c notes hc hnotes
  refine ⟨notes, rfl, hnotes, fun b c' h => ?_⟩
  rwa [(gives_pure.mp h).2]

theorem follows_ite {p : Prop} [Decidable p] {x x' : Watched α} {y y' : Reader α}
    (h : Follows limit k l x y) (h' : Follows limit k l x' y') :
    Follows limit k l (if p then x else x') (if p then y else y') := by
  split_ifs
  · exact h
  · exact h'

/-- What is kept above some base is kept above a higher one. -/
theorem Follows.above {x : Watched α} {y : Reader α} (h : Follows limit 0 0 x y) (k : Nat) :
    Follows limit k k x y := by
  intro base c notes hc hnotes
  obtain ⟨notes', hrun, hnotes', hgives⟩ := h (Cursor.holds_add_iff.mpr hc) hnotes
  exact ⟨notes', hrun, hnotes', fun _ _ hend => Cursor.holds_add_iff.mp (hgives hend)⟩

/-- The levels that are held behind a step are sound to note. -/
theorem follows_step {y : Reader α} (h : ∀ ⦃base : Nat⦄ ⦃c : Cursor⦄ ⦃a : α⦄ ⦃c' : Cursor⦄,
    y.Gives c a c' → c.Holds limit base k → c'.Holds limit base l) :
    Follows limit k l (Watched.step y) y := by
  intro base c notes hc hnotes
  cases hy : y.run c with
  | error e =>
    refine ⟨notes, ?_, hnotes, fun a c' h => nomatch hy.symm.trans h⟩
    rw [Watched.step, outcome_bind, outcome_unseen, hy]
  | ok r =>
    obtain ⟨a, c₁⟩ := r
    have hc₁ := h hy hc
    refine ⟨notes ++ [.held c₁.depth], ?_, ?_, fun a' c' h' => ?_⟩
    · rw [Watched.step, outcome_bind, outcome_unseen, hy]
      rfl
    · exact hnotes.snoc hc₁.le
    · cases hy.symm.trans h'
      exact hc₁

theorem Reader.KeepsDepth.follows {y : Reader α} (h : KeepsDepth y) :
    Follows limit k k (Watched.step y) y := by
  refine follows_step fun base c a c' hgives hc => ?_
  have hdepth := h hgives
  exact ⟨hdepth.trans hc.above, hdepth.trans_le hc.le⟩

theorem follows_deepen (hlimit : maxNesting ≤ limit) :
    Follows limit k (k + 1) (Watched.step deepen) deepen := by
  refine follows_step fun base c a c' hgives hc => ?_
  obtain ⟨hlt, rfl⟩ := gives_deepen.mp hgives
  exact ⟨congrArg (· + 1) hc.above, hlt.trans_le hlimit⟩

theorem follows_release (k : Nat) :
    Follows limit k 0 (Watched.release k) (Reader.release k) := by
  intro base c notes hc hnotes
  have hreturned : (Tally.returned c.depth k).Sound limit := hc.above ▸ Nat.le_add_left k base
  have hheld : (Tally.held (c.release k).depth).Sound limit := hc.release.le
  refine ⟨_, rfl, (hnotes.snoc hreturned).snoc hheld, fun a c' h => ?_⟩
  cases h
  exact hc.release

theorem follows_exhausted :
    Follows limit k l (unseen (throw .exhausted : Reader α)) (throw .exhausted) :=
  fun _ _ notes _ hnotes => ⟨notes, rfl, hnotes, fun _ _ h => absurd h not_gives_throw⟩

/-! ## The routines -/

namespace Production

/-- Under watch, what a routine does is followed. -/
def BodyFollows (limit : Nat) (call : (p : Production) → Watched p.Result)
    (call' : (p : Production) → Reader p.Result) (p : Production) : Prop :=
  Follows limit p.held 0 (p.body ⟨Watched.step, Watched.release, call⟩)
    (p.body ⟨id, Reader.release, call'⟩)

section

variable {call : (p : Production) → Watched p.Result} {call' : (p : Production) → Reader p.Result}
  (hlimit : maxNesting ≤ limit) (h : ∀ p, Follows limit p.held 0 (call p) (call' p))

include h

/-! ### Statements -/

theorem follows_statements (closing : Option Symbol) :
    (statements closing).BodyFollows limit call call' := by
  refine follows_bind (keepsDepth_atClosing closing).follows fun _ => ?_
  refine follows_ite (follows_pure []) ?_
  refine follows_bind (keepsDepth_accept _).follows fun _ => ?_
  refine follows_ite (h (.statements closing)) ?_
  refine follows_bind (h .statement) fun s => ?_
  refine follows_bind (keepsDepth_separator closing s).follows fun _ => ?_
  exact follows_bind (h (.statements closing)) fun _ => follows_pure _

include hlimit in
theorem follows_statement : statement.BodyFollows limit call call' := by
  refine follows_bind (follows_deepen hlimit) fun _ => ?_
  refine follows_bind ((h .statementBody).above 1) fun s => ?_
  exact follows_bind (follows_release 1) fun _ => follows_pure s

theorem follows_statementBody : statementBody.BodyFollows limit call call' := by
  refine follows_bind (keepsDepth_atWord _).follows fun _ => ?_
  refine follows_ite (h .conditionalStatement) ?_
  refine follows_bind (h .expression) fun e => ?_
  refine follows_bind (keepsDepth_accept _).follows fun _ => ?_
  refine follows_ite ?_ (follows_pure _)
  exact follows_bind (h .expression) fun _ => follows_pure _

theorem follows_conditionalStatement : conditionalStatement.BodyFollows limit call call' := by
  refine follows_bind keepsDepth_advance.follows fun _ => ?_
  refine follows_bind (keepsDepth_expect _ _).follows fun _ => ?_
  refine follows_bind (h .expression) fun _ => ?_
  refine follows_bind (keepsDepth_expect _ _).follows fun _ => ?_
  refine follows_bind (h .branch) fun _ => ?_
  refine follows_bind (keepsDepth_atWord _).follows fun _ => ?_
  refine follows_ite ?_ (follows_pure _)
  refine follows_bind keepsDepth_advance.follows fun _ => ?_
  exact follows_bind (h .branch) fun _ => follows_pure _

theorem follows_branch : branch.BodyFollows limit call call' := by
  refine follows_bind (keepsDepth_accept _).follows fun _ => ?_
  refine follows_ite ?_ ?_
  · refine follows_bind (h (.statements _)) fun _ => ?_
    exact follows_bind (keepsDepth_expect _ _).follows fun _ => follows_pure _
  · exact follows_bind (h .statement) fun _ => follows_pure _

/-! ### Expressions and operators -/

include hlimit in
theorem follows_expression : expression.BodyFollows limit call call' := by
  refine follows_bind (follows_deepen hlimit) fun _ => ?_
  refine follows_bind ((h (.binary 0)).above 1) fun condition => ?_
  refine follows_bind (keepsDepth_accept _).follows fun _ => ?_
  refine follows_ite ?_ ?_
  · refine follows_bind ((h .expression).above 1) fun _ => ?_
    refine follows_bind (keepsDepth_expect _ _).follows fun _ => ?_
    refine follows_bind ((h .expression).above 1) fun _ => ?_
    exact follows_bind (follows_release 1) fun _ => follows_pure _
  · exact follows_bind (follows_release 1) fun _ => follows_pure condition

theorem follows_binary (level : Nat) : (binary level).BodyFollows limit call call' := by
  refine follows_ite ?_ (h .unary)
  refine follows_bind (h (.binary (level + 1))) fun first => ?_
  exact h (.binaryChain level first 0)

include hlimit in
theorem follows_binaryChain (level : Nat) (lhs : Expr) (held : Nat) :
    (binaryChain level lhs held).BodyFollows limit call call' := by
  refine follows_bind (keepsDepth_infixOperator? level).follows fun found => ?_
  cases found with
  | some op =>
    refine follows_bind (follows_deepen hlimit) fun _ => ?_
    refine follows_bind ((h (.binary (level + 1))).above (held + 1)) fun rhs => ?_
    exact h (.binaryChain level (.binary op lhs rhs) (held + 1))
  | none => exact follows_bind (follows_release held) fun _ => follows_pure lhs

include hlimit in
theorem follows_unary : unary.BodyFollows limit call call' := by
  refine follows_bind keepsDepth_unaryOperator?.follows fun found => ?_
  cases found with
  | some op =>
    refine follows_bind (follows_deepen hlimit) fun _ => ?_
    refine follows_bind ((h .unary).above 1) fun _ => ?_
    exact follows_bind (follows_release 1) fun _ => follows_pure _
  | none => exact h .application

/-! ### Applications and properties -/

theorem follows_application : application.BodyFollows limit call call' :=
  follows_bind (h .primary) fun e => h (.applicationChain e 0)

include hlimit in
theorem follows_applicationChain (head : Expr) (held : Nat) :
    (applicationChain head held).BodyFollows limit call call' := by
  refine follows_bind (keepsDepth_accept _).follows fun _ => ?_
  refine follows_ite ?_ ?_
  · refine follows_bind (follows_deepen hlimit) fun _ => ?_
    refine follows_bind ((h .arguments).above (held + 1)) fun args => ?_
    exact h (.applicationChain (.call head args) (held + 1))
  · refine follows_bind ((h (.property head)).above held) fun found => ?_
    cases found with
    | some head' =>
      refine follows_bind (follows_deepen hlimit) fun _ => ?_
      exact h (.applicationChain head' (held + 1))
    | none => exact follows_bind (follows_release held) fun _ => follows_pure head

theorem follows_property (object : Expr) : (property object).BodyFollows limit call call' := by
  refine follows_bind (keepsDepth_accept _).follows fun _ => ?_
  refine follows_ite ?_ ?_
  · exact follows_bind keepsDepth_propertyName.follows fun _ => follows_pure _
  · refine follows_bind (keepsDepth_accept _).follows fun _ => ?_
    refine follows_ite ?_ (follows_pure none)
    refine follows_bind (h .expression) fun _ => ?_
    exact follows_bind (keepsDepth_expect _ _).follows fun _ => follows_pure _

theorem follows_arguments : arguments.BodyFollows limit call call' := by
  refine follows_bind (keepsDepth_accept _).follows fun _ => ?_
  exact follows_ite (follows_pure []) (h .argumentsAfter)

theorem follows_argumentsAfter : argumentsAfter.BodyFollows limit call call' := by
  refine follows_bind (h .expression) fun arg => ?_
  refine follows_bind (keepsDepth_accept _).follows fun _ => ?_
  refine follows_ite ?_ ?_
  · exact follows_bind (h .argumentsAfter) fun _ => follows_pure _
  · exact follows_bind (keepsDepth_expect _ _).follows fun _ => follows_pure _

/-! ### Primaries and constructions -/

theorem follows_primary : primary.BodyFollows limit call call' := by
  refine follows_bind keepsDepth_peek.follows fun found => ?_
  dsimp only
  split
  · refine follows_bind keepsDepth_advance.follows fun _ => ?_
    refine follows_bind (h .expression) fun _ => ?_
    exact follows_bind (keepsDepth_expect _ _).follows fun _ => follows_pure _
  next digits =>
    split
    · exact follows_bind keepsDepth_advance.follows fun _ => follows_pure _
    · exact (keepsDepth_fail _ _).follows
  · exact follows_bind keepsDepth_advance.follows fun _ => follows_pure _
  next name =>
    refine follows_ite ?_ (follows_ite ?_ (follows_ite ?_ (follows_ite ?_ ?_)))
    · exact follows_bind keepsDepth_advance.follows fun _ => follows_pure _
    · exact follows_bind keepsDepth_advance.follows fun _ => follows_pure _
    · exact follows_bind keepsDepth_advance.follows fun _ => h .construction
    · exact (keepsDepth_fail _ _).follows
    · exact follows_bind keepsDepth_advance.follows fun _ => follows_pure _
  · exact (keepsDepth_fail _ _).follows

include hlimit in
theorem follows_construction : construction.BodyFollows limit call call' := by
  refine follows_bind (follows_deepen hlimit) fun _ => ?_
  exact follows_bind ((h .primary).above 1) fun callee => h (.constructionChain callee 1)

include hlimit in
theorem follows_constructionChain (callee : Expr) (held : Nat) :
    (constructionChain callee held).BodyFollows limit call call' := by
  refine follows_bind ((h (.property callee)).above held) fun found => ?_
  cases found with
  | some callee' =>
    refine follows_bind (follows_deepen hlimit) fun _ => ?_
    exact h (.constructionChain callee' (held + 1))
  | none =>
    refine follows_bind (keepsDepth_expect _ _).follows fun _ => ?_
    refine follows_bind ((h .arguments).above held) fun _ => ?_
    exact follows_bind (follows_release held) fun _ => follows_pure _

/-! ### All routines -/

include hlimit in
/-- A routine is followed if those that it calls are. -/
theorem follows_body (p : Production) : p.BodyFollows limit call call' := by
  cases p with
  | statements => exact follows_statements h _
  | statement => exact follows_statement hlimit h
  | statementBody => exact follows_statementBody h
  | conditionalStatement => exact follows_conditionalStatement h
  | branch => exact follows_branch h
  | expression => exact follows_expression hlimit h
  | binary => exact follows_binary h _
  | binaryChain => exact follows_binaryChain hlimit h _ _ _
  | unary => exact follows_unary hlimit h
  | application => exact follows_application h
  | applicationChain => exact follows_applicationChain hlimit h _ _
  | property => exact follows_property h _
  | arguments => exact follows_arguments h
  | argumentsAfter => exact follows_argumentsAfter h
  | primary => exact follows_primary h
  | construction => exact follows_construction hlimit h
  | constructionChain => exact follows_constructionChain hlimit h _ _

end

/-- Under watch a routine does what it does, and its notes are sound. -/
theorem follows_watch (hlimit : maxNesting ≤ limit) (n : Nat) (p : Production) :
    Follows limit p.held 0 (p.watch n) (p.read n) := by
  induction n generalizing p with
  | zero =>
    rw [watch, read_zero]
    exact follows_exhausted
  | succ n ih =>
    rw [watch, read_succ]
    exact follows_body hlimit ih p

/-- **The count of levels is balanced.** A routine that succeeds, from any place, has given back the
levels that it claimed, and those that it was handed. Whether it succeeds or not, none are ever
given back that are not held, and no more are held than at the beginning or than are allowed. -/
theorem watch_sound (n : Nat) (p : Production) {c : Cursor} (h : p.held ≤ c.depth) :
    ∃ notes, (p.watch n).outcome c [] = ((p.read n).run c, notes) ∧
      (∀ {a c'}, (p.read n).Gives c a c' → c'.depth + p.held = c.depth) ∧
      (∀ {depth levels}, .returned depth levels ∈ notes → levels ≤ depth) ∧
      ∀ {depth}, .held depth ∈ notes → depth ≤ max c.depth maxNesting := by
  have hc : c.Holds (max c.depth maxNesting) (c.depth - p.held) p.held :=
    ⟨(Nat.sub_add_cancel h).symm, le_max_left _ _⟩
  have hnil : SoundNotes (max c.depth maxNesting) [] := fun _ h => nomatch h
  obtain ⟨notes, hrun, hnotes, hgives⟩ := follows_watch (le_max_right _ _) n p hc hnil
  refine ⟨notes, hrun, fun hend => ?_, fun hmem => hnotes _ hmem, fun hmem => hnotes _ hmem⟩
  have habove := (hgives hend).above
  omega

/-- A call and a property behind a head hold two levels, which the chain gives back with the one
that it was handed. -/
theorem watch_sound_chain :
    let c : Cursor := { (scan "(a).x").cursor with depth := 1 }
    let p : Production := .applicationChain (.ident "f") 1
    p.held ≤ c.depth ∧ ∃ c' notes, (p.watch 40).outcome c [] =
      (.ok (.member (.call (.ident "f") [.ident "a"]) "x", c'), notes) ∧
      c'.depth + p.held = c.depth ∧ .returned 3 3 ∈ notes ∧
      (∀ {depth levels}, .returned depth levels ∈ notes → levels ≤ depth) ∧
      ∀ {depth}, .held depth ∈ notes → depth ≤ 64 := by
  intro c p
  have hgives : (p.read 40).Gives c (.member (.call (.ident "f") [.ident "a"]) "x")
    ⟨[], .complete ⟨1, 6⟩, 0⟩ := by cbv
  have hmem : ((p.watch 40).outcome c []).2.contains (.returned 3 3) = true := by cbv
  obtain ⟨notes, hrun, hend, hreturned, hheld⟩ := watch_sound 40 p (c := c) (by decide)
  rw [hrun, List.contains_iff_mem] at hmem
  rw [hgives] at hrun
  exact ⟨by decide, _, notes, hrun, hend hgives, hmem, hreturned, hheld⟩

end Production

end Isa16
