import Isa16.Proofs.Program.Grammar
import Isa16.Proofs.Program.Spelling
import Isa16.Program.Resolve

/-!
# Instructions joined to a text

* `Closed`: lexemes that end with a separator or a block. What follows them begins a statement.
* `Parses.append`: what is read stays as it is in front of lexemes at which it rests.
* `Parses.join`: statements are read in front of statements, with a separator between them or
  behind closed lexemes.
* `not_parses_behind`: behind lexemes that are not closed, arguments begin no statement.
* `Sealed`: a text does not end inside a comment, or is closed in front of it.
* **`Program.parse_source`**: instructions are read one after the other if all but the last are
  sealed; one that is not is not read so in front of every other.
-/

namespace Isa16

/-! ## Reading in front of more lexemes -/

/-- The lexeme ends what stands in front of it: a separator or the end of a block. -/
def Lexeme.Closes (l : Lexeme) : Prop :=
  l = semicolon ∨ l = .symbol .rightBrace

/-- The last of the lexemes, if any, closes what stands in front of it. -/
def Closed (ls : List Lexeme) : Prop :=
  ∀ l ∈ ls.getLast?, l.Closes

/-- The phrase, which makes up all the lexemes, stays as it is in front of the lexeme. -/
def Phrase.Rests (ls : List Lexeme) (next : Option Lexeme) : Phrase → Prop
  | statements .. => next = none
  | statement _ | statementBody _ | conditionalStatement _ | branch _ =>
    next ≠ some (.identifier "else") ∧ (Closed ls ∨
      Stops 0 next ∧ next ≠ some (.symbol .question) ∧ next ≠ some (.symbol .equals))
  | expression _ => Stops 0 next ∧ next ≠ some (.symbol .question)
  | binary level _ | binaryChain level .. => Stops level next
  | unary _ | application _ | applicationChain .. | property _ none =>
    ∃ level, Stops level next
  | property _ (some _) | primary _ | construction _ | constructionChain .. | arguments _
  | argumentsAfter _ => True

variable {φ : Phrase} {m n : Nat} {u v x : List Lexeme}

theorem holds_head?_append {P : Option Lexeme → Prop} (h : P v.head?) (hx : v = [] → P x.head?) :
    P (v ++ x).head? := by
  cases v with
  | nil => exact hx rfl
  | cons => exact h

theorem Parses.ne_nil (h : Parses φ m u v) (hφ : φ.least = 1) : u ≠ [] := by
  have hlength := h.length_le
  rw [hφ] at hlength
  exact List.ne_nil_of_length_pos (Nat.lt_of_lt_of_le (Nat.succ_pos _) hlength)

theorem Parses.head?_append (h : Parses φ m u v) (hφ : φ.least = 1) (x : List Lexeme) :
    (u ++ x).head? = u.head? :=
  List.head?_append_of_ne_nil u (h.ne_nil hφ)

theorem Parses.eq_nil (h : Parses φ m [] v) : v = [] :=
  List.eq_nil_of_length_eq_zero (Nat.le_zero.mp ((Nat.le_add_right _ _).trans h.length_le))

theorem Separated.eq_nil {closing : Option Symbol} {s : Stmt} (h : Separated closing s [] v) :
    v = [] :=
  List.suffix_nil.mp h.suffix

theorem Separated.append {closing : Option Symbol} {s : Stmt} (h : Separated closing s u v)
    (hx : v = [] → x.head? = none) : Separated closing s (u ++ x) (v ++ x) := by
  cases h with
  | conditional hs => exact .conditional hs
  | closed hs hc =>
    refine .closed hs (holds_head?_append (P := (· = _)) hc fun hv => ?_)
    subst hv
    exact (hx rfl).trans hc
  | semicolon hs hc => exact .semicolon hs hc

theorem Parses.suffix_behind {l : Lexeme} (h : Parses φ m u (l :: v)) : v <:+ u :=
  (List.suffix_cons l v).trans h.suffix

theorem Parses.suffix_of_condition {e : Expr} {k l l' : Lexeme}
    (h : Parses (.expression e) m u (k :: v)) : v <:+ l :: l' :: u :=
  h.suffix_behind.trans ((List.suffix_cons l' u).trans (List.suffix_cons l (l' :: u)))

theorem closed_nil : Closed [] :=
  fun _ hl => absurd hl (by simp)

theorem closed_iff_of_suffix (hv : v <:+ u) (hne : v ≠ []) : Closed v ↔ Closed u := by
  obtain ⟨w, rfl⟩ := hv
  rw [Closed, Closed, List.getLast?_append_of_ne_nil w hne]

theorem Closed.of_suffix (h : Closed u) (hv : v <:+ u) : Closed v := by
  cases v with
  | nil => exact closed_nil
  | cons l v => exact (closed_iff_of_suffix hv (List.cons_ne_nil l v)).mpr h

theorem Closed.cons {l : Lexeme} (h : Closed v) (hl : l.Closes) : Closed (l :: v) := by
  cases v with
  | nil =>
    rintro k ⟨⟩
    exact hl
  | cons k v => exact (closed_iff_of_suffix (List.suffix_cons l _) (List.cons_ne_nil k v)).mp h

/-- An expression does not end with what ends statements and blocks. -/
theorem not_closed_of_expression {e : Expr} (h : Parses (.expression e) m u []) : ¬ Closed u := by
  obtain ⟨w, hw, hderives⟩ := derives_of_parses h
  rw [List.append_nil] at hw
  subst hw
  obtain ⟨l, v, rfl, -⟩ := hderives.front
  intro hclosed
  have hmem := List.getLast_mem (List.cons_ne_nil l v)
  rcases hclosed _ (List.getLast?_eq_getLast_of_ne_nil (List.cons_ne_nil l v)) with hl | hl
  · exact hderives.symbol_notMem (Or.inl rfl) (hl ▸ hmem :)
  · exact hderives.symbol_notMem (Or.inr rfl) (hl ▸ hmem :)

/-- What is read stays as it is in front of lexemes at which it rests. -/
theorem Parses.append (h : Parses φ m u v) (hx : v = [] → φ.Rests u x.head?) :
    Parses φ m (u ++ x) (v ++ x) := by
  induction h with
  | statementsEnd h =>
    refine .statementsEnd (holds_head?_append (P := (· = _)) h fun hu => ?_)
    subst hu
    exact (hx rfl).trans h
  | statementsSkip hc _ ih => exact .statementsSkip hc (ih hx)
  | @statementsCons _ _ _ _ _ _ u₁ u₂ _ hc hsemi hs hsep h ihs ih =>
    rw [← hs.head?_append rfl x] at hc hsemi
    have hnone : u₂ = [] → x.head? = none := by
      rintro rfl
      exact hx h.eq_nil
    have hsep' := hsep.append hnone
    refine .statementsCons hc hsemi (ihs ?_) hsep' (ih hx)
    rintro rfl
    rw [hnone hsep.eq_nil]
    exact ⟨by simp, Or.inr ⟨stops_none 0, by simp, by simp⟩⟩
  | statement _ ih => exact .statement (ih hx)
  | conditionalBody _ ih => exact .conditionalBody (ih hx)
  | assignmentBody hif ht hv iht ihv =>
    rw [← ht.head?_append rfl x] at hif
    refine .assignmentBody hif (iht (by simp)) (ihv fun hnil => ?_)
    subst hnil
    have hclosed : ¬ Closed _ := fun hclosed =>
      not_closed_of_expression hv (hclosed.of_suffix ht.suffix_behind)
    obtain ⟨hstop, hq, -⟩ := (hx rfl).2.resolve_left hclosed
    exact ⟨hstop, hq⟩
  | expressionBody hif he heq ih =>
    rw [← he.head?_append rfl x] at hif
    refine .expressionBody hif (ih ?_) (holds_head?_append (P := (· ≠ _)) heq ?_) <;> rintro rfl
    · obtain ⟨hstop, hq, -⟩ := (hx rfl).2.resolve_left (not_closed_of_expression he)
      exact ⟨hstop, hq⟩
    · exact ((hx rfl).2.resolve_left (not_closed_of_expression he)).2.2
  | ifElse hc ht hf ihc iht ihf =>
    refine .ifElse (ihc (by simp)) (iht (by simp)) (ihf fun hnil => (hx hnil).imp_right ?_)
    exact Or.imp_left fun hclosed =>
      hclosed.of_suffix (ht.suffix_behind.trans hc.suffix_of_condition)
  | ifOnly hc ht helse ihc iht =>
    refine .ifOnly (ihc (by simp)) (iht fun hnil => (hx hnil).imp_right ?_)
      (holds_head?_append (P := (· ≠ _)) helse fun hnil => (hx hnil).1)
    exact Or.imp_left fun hclosed => hclosed.of_suffix hc.suffix_of_condition
  | block _ ih => exact .block (ih (by simp))
  | single ho h ih =>
    rw [← h.head?_append rfl x] at ho
    exact .single ho (ih hx)
  | choice _ _ _ ihc iht ihf => exact .choice (ihc (by simp)) (iht (by simp)) (ihf hx)
  | plain _ hq ih =>
    exact .plain (ih fun hnil => (hx hnil).1)
      (holds_head?_append (P := (· ≠ _)) hq fun hnil => (hx hnil).2)
  | level hl _ h ihf ih =>
    refine .level hl (ihf ?_) (ih hx)
    rintro rfl
    exact (hx h.eq_nil).mono (Nat.le_succ _)
  | noLevel hl _ ih => exact .noLevel hl (ih fun hnil => ⟨_, hx hnil⟩)
  | binaryStep hop _ h ihr ih =>
    refine .binaryStep hop (ihr ?_) (ih hx)
    rintro rfl
    exact (hx h.eq_nil).mono (Nat.le_succ _)
  | binaryEnd hop =>
    exact .binaryEnd
      (holds_head?_append (P := (Reader.infixOf? _ · = none)) hop fun hnil => (hx hnil).1 _ le_rfl)
  | unaryStep hop _ ih => exact .unaryStep hop (ih hx)
  | unaryEnd hop h ih =>
    rw [← h.head?_append rfl x] at hop
    exact .unaryEnd hop (ih hx)
  | application _ _ ihp ih => exact .application (ihp fun _ => trivial) (ih hx)
  | callStep _ _ iha ih => exact .callStep (iha fun _ => trivial) (ih hx)
  | propertyStep _ _ ihp ih => exact .propertyStep (ihp fun _ => trivial) (ih hx)
  | applicationEnd ho _ ih =>
    refine .applicationEnd (holds_head?_append (P := (· ≠ _)) ho fun hnil => ?_) (ih hx)
    obtain ⟨_, hstop⟩ := hx hnil
    exact hstop.2.1
  | member => exact .member
  | index _ ih => exact .index (ih (by simp))
  | noProperty hdot ho =>
    refine .noProperty (holds_head?_append (P := (· ≠ _)) hdot fun hnil => ?_)
      (holds_head?_append (P := (· ≠ _)) ho fun hnil => ?_)
    · obtain ⟨_, hstop⟩ := hx hnil
      exact hstop.2.2.1
    · obtain ⟨_, hstop⟩ := hx hnil
      exact hstop.2.2.2
  | group _ ih => exact .group (ih (by simp))
  | number hv => exact .number hv
  | text => exact .text
  | trueWord => exact .trueWord
  | falseWord => exact .falseWord
  | new _ ih => exact .new (ih fun _ => trivial)
  | ident hk => exact .ident hk
  | construction _ _ ihp ih => exact .construction (ihp fun _ => trivial) (ih fun _ => trivial)
  | constructionStep _ _ ihp ih =>
    exact .constructionStep (ihp fun _ => trivial) (ih fun _ => trivial)
  | constructionEnd _ iha => exact .constructionEnd (iha fun _ => trivial)
  | noArguments => exact .noArguments
  | someArguments hc h ih =>
    rw [← h.head?_append rfl x] at hc
    exact .someArguments hc (ih fun _ => trivial)
  | moreArguments _ _ iha ih => exact .moreArguments (iha (by simp)) (ih fun _ => trivial)
  | lastArgument _ iha => exact .lastArgument (iha (by simp))

/-! ## Statements behind statements -/

theorem Parses.opens {e : Expr} (h : Parses (.expression e) m u v) :
    ∃ l w, u = l :: w ∧ l.Opens := by
  obtain ⟨w, rfl, hw⟩ := derives_of_parses h
  obtain ⟨l, w, rfl, hl⟩ := hw.front
  exact ⟨l, w ++ v, rfl, hl⟩

theorem Lexeme.Opens.ne_else {l : Lexeme} (h : l.Opens) : l ≠ .identifier "else" := by
  rintro rfl
  exact h.2 rfl

theorem Parses.statement_ne_else {s : Stmt} (h : Parses (.statement s) m u v) :
    u.head? ≠ some (.identifier "else") := by
  cases h with
  | statement h =>
    cases h with
    | conditionalBody => simp
    | assignmentBody _ h | expressionBody _ h =>
      obtain ⟨l, w, rfl, hl⟩ := h.opens
      simpa using hl.ne_else

theorem Parses.statements_ne_else {ss : List Stmt} (h : Parses (.statements none ss) m u v) :
    u.head? ≠ some (.identifier "else") := by
  cases h with
  | statementsEnd hnone => simp [hnone]
  | statementsSkip => simp
  | statementsCons _ _ hs => exact hs.statement_ne_else

theorem Parses.of_semicolon {ss : List Stmt}
    (h : Parses (.statements none ss) m (semicolon :: u) v) :
    Parses (.statements none ss) m u v := by
  cases h with
  | statementsEnd hnone => cases hnone
  | statementsSkip _ h => exact h
  | statementsCons _ hsemi => exact absurd rfl hsemi

theorem not_closed_of_statement {s : Stmt} (h : Parses (.statement s) m u [])
    (hs : s.isConditional = false) : ¬ Closed u := by
  cases h with
  | statement h =>
    cases h with
    | conditionalBody h => cases h <;> cases hs
    | assignmentBody _ ht hv =>
      exact fun hclosed => not_closed_of_expression hv (hclosed.of_suffix ht.suffix_behind)
    | expressionBody _ he => exact not_closed_of_expression he

theorem rests_at_semicolon {next : Option Lexeme} (h : next = some semicolon) :
    Stops 0 next ∧ next ≠ some (.symbol .question) ∧ next ≠ some (.symbol .equals) := by
  subst h
  exact ⟨stops_cons rfl (by decide) 0 [], by simp, by simp⟩

/-- **Statements in front of statements**, with a separator between them or an end that needs
none. -/
theorem Parses.join {ss ss' : List Stmt} (h : Parses φ m u v) (hφ : φ = .statements none ss)
    (hv : v = []) (h' : Parses (.statements none ss') n x [])
    (hend : x.head? = some semicolon ∨ Closed u) :
    Parses (.statements none (ss ++ ss')) (max m n) (u ++ x) [] := by
  induction h generalizing ss with
  | statementsEnd h =>
    cases hφ
    subst hv
    rwa [Nat.zero_max]
  | statementsSkip hc _ ih =>
    cases hφ
    exact .statementsSkip hc
      (ih rfl hv (hend.imp_right fun hclosed => hclosed.of_suffix (List.suffix_cons _ _)))
  | @statementsCons _ s ss _ k u u₁ u₂ _ hc hsemi hs hsep h _ ih =>
    cases hφ
    rw [← hs.head?_append rfl x] at hc hsemi
    have hs' : Parses (.statement s) _ (u ++ x) (u₁ ++ x) :=
      hs.append fun _ => ⟨h'.statements_ne_else, hend.symm.imp_right rests_at_semicolon⟩
    have hrest : Parses (.statements none (ss ++ ss')) (max k n) (u₂ ++ x) [] :=
      ih rfl hv (hend.imp_right fun hclosed => hclosed.of_suffix (hsep.suffix.trans hs.suffix))
    obtain ⟨y, hsep', hy⟩ : ∃ y, Separated none s (u₁ ++ x) y ∧
        Parses (.statements none (ss ++ ss')) (max k n) y [] := by
      cases hsep with
      | conditional hcond => exact ⟨_, .conditional hcond, hrest⟩
      | closed hcond hnone =>
        obtain rfl : u₁ = [] := List.head?_eq_none_iff.mp hnone
        obtain ⟨y, rfl⟩ : ∃ y, x = semicolon :: y :=
          List.head?_eq_some_iff.mp (hend.resolve_right (not_closed_of_statement hs hcond))
        exact ⟨y, .semicolon hcond (by simp), hrest.of_semicolon⟩
      | semicolon hcond hc => exact ⟨_, .semicolon hcond hc, hrest⟩
    exact (Parses.statementsCons hc hsemi hs' hsep' hy).of_eq (Nat.max_assoc _ _ _).symm
  | _ => cases hφ

/-! ## Arguments behind statements -/

/-- A group, or arguments behind an operand. -/
def grouped : List Lexeme :=
  [.symbol .leftParen, .identifier "b", .symbol .rightParen]

theorem parses_inner : Parses (.expression (.ident "b")) 1
    [.identifier "b", .symbol .rightParen] [.symbol .rightParen] := by
  have hstop := stops_rightParen 0 []
  exact parses_expression_of_unary (parses_unary_of_primary (.ident rfl) rfl hstop) hstop (by simp)

theorem parses_called (head : Expr) (held : Nat) :
    Parses (.applicationChain head held (.call head [.ident "b"])) 2 grouped [] := by
  have hargs : Parses (.arguments [.ident "b"]) 1 [.identifier "b", .symbol .rightParen] [] :=
    .someArguments (by simp) (.lastArgument parses_inner)
  exact .callStep hargs (.applicationEnd (by simp) (.noProperty (by simp) (by simp)))

/-- The phrase, which makes up the lexemes, takes arguments behind them as its own. -/
def Phrase.Extends (w : List Lexeme) : Phrase → Prop
  | statements closing ss => closing = none → ¬ Closed w →
    ∃ ss' n, ss'.length = ss.length ∧ Parses (.statements none ss') n (w ++ grouped) []
  | statement s => ¬ Closed w → ∃ s' n, s'.isConditional = s.isConditional ∧
    Parses (.statement s') n (w ++ grouped) []
  | statementBody s => ¬ Closed w → ∃ s' n, s'.isConditional = s.isConditional ∧
    Parses (.statementBody s') n (w ++ grouped) []
  | conditionalStatement s => ¬ Closed w → ∃ s' n, s'.isConditional = s.isConditional ∧
    Parses (.conditionalStatement s') n (w ++ grouped) []
  | branch _ => ¬ Closed w → ∃ ss' n, Parses (.branch ss') n (w ++ grouped) []
  | expression _ => ∃ e' n, Parses (.expression e') n (w ++ grouped) []
  | binary level _ => ∃ e' n, Parses (.binary level e') n (w ++ grouped) []
  | binaryChain level lhs held _ =>
    w ≠ [] → ∃ e' n, Parses (.binaryChain level lhs held e') n (w ++ grouped) []
  | unary _ => ∃ e' n, Parses (.unary e') n (w ++ grouped) []
  | application _ => ∃ e' n, Parses (.application e') n (w ++ grouped) []
  | applicationChain head held _ =>
    ∃ e' n, Parses (.applicationChain head held e') n (w ++ grouped) []
  | property .. | primary _ | construction _ | constructionChain .. | arguments _
  | argumentsAfter _ => True

/-- The arguments go to the last of the statements. -/
theorem Phrase.extends_statementsCons {closing : Option Symbol} {s : Stmt} {ss : List Stmt}
    {u₁ u₂ : List Lexeme} (hc : u.head? ≠ closing.map .symbol) (hsemi : u.head? ≠ some semicolon)
    (hs : Parses (.statement s) m u u₁) (hsep : Separated closing s u₁ u₂)
    (h : Parses (.statements closing ss) n u₂ [])
    (ihs : u₁ = [] → (Phrase.statement s).Extends u)
    (ih : (Phrase.statements closing ss).Extends u₂) :
    (Phrase.statements closing (s :: ss)).Extends u := by
  rintro rfl hclosed
  rw [← hs.head?_append rfl grouped] at hc hsemi
  by_cases hnil : u₁ = []
  · obtain ⟨s', k, hcond, hs'⟩ := ihs hnil hclosed
    subst hnil
    obtain rfl := hsep.eq_nil
    have hsep' : Separated none s' [] [] := by
      cases hs : s'.isConditional with
      | true => exact .conditional hs
      | false => exact .closed hs rfl
    cases h with
    | statementsEnd hnone =>
      exact ⟨[s'], _, rfl, .statementsCons hc hsemi hs' hsep' (.statementsEnd hnone)⟩
    | statementsCons hne => exact absurd rfl hne
  · have hopen := mt (closed_iff_of_suffix hs.suffix hnil).mp hclosed
    have hs' : Parses (.statement s) m (u ++ grouped) (u₁ ++ grouped) :=
      hs.append fun hu => absurd hu hnil
    have hne : u₂ ≠ [] := by
      rintro rfl
      cases hsep with
      | conditional | closed => exact hnil rfl
      | semicolon => exact hopen (closed_nil.cons (Or.inl rfl))
    have hsep' := hsep.append (x := grouped) fun hu => absurd hu hne
    obtain ⟨ss', k, hlength, h'⟩ := ih rfl (mt (closed_iff_of_suffix hsep.suffix hne).mp hopen)
    exact ⟨s :: ss', _, congrArg Nat.succ hlength, .statementsCons hc hsemi hs' hsep' h'⟩

/-- A chain that takes nothing leaves the arguments to the operand in front of it. -/
theorem Phrase.extends_level {level : Nat} {first e : Expr} {u₁ : List Lexeme}
    (hl : level < BinaryOp.levels) (hf : Parses (.binary (level + 1) first) m u u₁)
    (ihf : u₁ = [] → (Phrase.binary (level + 1) first).Extends u)
    (ih : (Phrase.binaryChain level first 0 e).Extends u₁) : (Phrase.binary level e).Extends u := by
  by_cases hnil : u₁ = []
  · obtain ⟨e', n, h'⟩ := ihf hnil
    exact ⟨_, _, .level hl h' (.binaryEnd rfl)⟩
  · obtain ⟨e', n, h'⟩ := ih hnil
    exact ⟨_, _, .level hl (hf.append fun hu => absurd hu hnil) h'⟩

theorem Phrase.extends_binaryStep {level held : Nat} {s : Symbol} {op : BinaryOp}
    {lhs rhs e : Expr} {u₁ : List Lexeme} (hop : Reader.infixOf? level (some (.symbol s)) = some op)
    (hr : Parses (.binary (level + 1) rhs) m u u₁)
    (ihr : u₁ = [] → (Phrase.binary (level + 1) rhs).Extends u)
    (ih : (Phrase.binaryChain level (.binary op lhs rhs) (held + 1) e).Extends u₁) :
    (Phrase.binaryChain level lhs held e).Extends (.symbol s :: u) := by
  intro _
  by_cases hnil : u₁ = []
  · obtain ⟨e', n, h'⟩ := ihr hnil
    exact ⟨_, _, .binaryStep hop h' (.binaryEnd rfl)⟩
  · obtain ⟨e', n, h'⟩ := ih hnil
    exact ⟨_, _, .binaryStep hop (hr.append fun hu => absurd hu hnil) h'⟩

theorem extends_of_parses (h : Parses φ m u v) (hv : v = []) : φ.Extends u := by
  induction h with
  | statementsEnd =>
    subst hv
    exact fun _ hclosed => absurd closed_nil hclosed
  | statementsSkip hc _ ih =>
    rintro rfl hclosed
    obtain ⟨ss', n, hlength, h⟩ := ih hv rfl fun hu => hclosed (hu.cons (Or.inl rfl))
    exact ⟨ss', n, hlength, .statementsSkip hc h⟩
  | statementsCons hc hsemi hs hsep h ihs ih =>
    subst hv
    exact Phrase.extends_statementsCons hc hsemi hs hsep h ihs (ih rfl)
  | statement _ ih =>
    intro hclosed
    obtain ⟨s', n, hs', h⟩ := ih hv hclosed
    exact ⟨s', _, hs', .statement h⟩
  | conditionalBody _ ih =>
    intro hclosed
    obtain ⟨s', n, hs', h⟩ := ih hv hclosed
    exact ⟨s', _, hs', .conditionalBody h⟩
  | assignmentBody hif ht hvalue iht ihv =>
    intro hclosed
    obtain ⟨e', n, h⟩ := ihv hv
    rw [← ht.head?_append rfl grouped] at hif
    exact ⟨.assign _ e', _, rfl, .assignmentBody hif (ht.append (by simp)) h⟩
  | expressionBody hif he heq ih =>
    intro hclosed
    obtain ⟨e', n, h⟩ := ih hv
    rw [← he.head?_append rfl grouped] at hif
    exact ⟨.expr e', _, rfl, .expressionBody hif h (by simp)⟩
  | ifElse hc ht hf _ _ ihf =>
    intro hclosed
    obtain ⟨f', n, h⟩ := ihf hv (mt (closed_iff_of_suffix
      (ht.suffix_behind.trans hc.suffix_of_condition) (hf.ne_nil rfl)).mp hclosed)
    exact ⟨.ite _ _ f', _, rfl, .ifElse (hc.append (by simp)) (ht.append (by simp)) h⟩
  | ifOnly hc ht _ _ iht =>
    intro hclosed
    obtain ⟨t', n, h⟩ := iht hv
      (mt (closed_iff_of_suffix hc.suffix_of_condition (ht.ne_nil rfl)).mp hclosed)
    exact ⟨.ite _ t' [], _, rfl, .ifOnly (hc.append (by simp)) h (by simp)⟩
  | block h _ =>
    subst hv
    have hbrace : Closed [.symbol .rightBrace] := closed_nil.cons (Or.inr rfl)
    exact fun hclosed => absurd ((closed_iff_of_suffix
      (h.suffix.trans (List.suffix_cons _ _)) (List.cons_ne_nil _ _)).mp hbrace) hclosed
  | single ho h ih =>
    intro hclosed
    obtain ⟨s', n, -, h'⟩ := ih hv hclosed
    rw [← h.head?_append rfl grouped] at ho
    exact ⟨_, _, .single ho h'⟩
  | choice hc ht _ _ _ ihf =>
    obtain ⟨f', n, hf'⟩ := ihf hv
    exact ⟨_, _, .choice (hc.append (by simp)) (ht.append (by simp)) hf'⟩
  | plain _ _ ih =>
    obtain ⟨e', n, h'⟩ := ih hv
    exact ⟨_, _, .plain h' (by simp)⟩
  | level hl hf _ ihf ih => exact Phrase.extends_level hl hf ihf (ih hv)
  | noLevel hl _ ih =>
    obtain ⟨e', n, h'⟩ := ih hv
    exact ⟨_, _, .noLevel hl h'⟩
  | binaryStep hop hr _ ihr ih => exact Phrase.extends_binaryStep hop hr ihr (ih hv)
  | binaryEnd => exact fun hne => absurd hv hne
  | unaryStep hop _ ih =>
    obtain ⟨e', n, h'⟩ := ih hv
    exact ⟨_, _, .unaryStep hop h'⟩
  | unaryEnd hop h ih =>
    obtain ⟨e', n, h'⟩ := ih hv
    rw [← h.head?_append rfl grouped] at hop
    exact ⟨_, _, .unaryEnd hop h'⟩
  | application hp _ _ ih =>
    obtain ⟨e', n, h'⟩ := ih hv
    exact ⟨_, _, .application (hp.append fun _ => trivial) h'⟩
  | callStep ha _ _ ih =>
    obtain ⟨e', n, h'⟩ := ih hv
    exact ⟨_, _, .callStep (ha.append fun _ => trivial) h'⟩
  | propertyStep hp _ _ ih =>
    obtain ⟨e', n, h'⟩ := ih hv
    exact ⟨_, _, .propertyStep (hp.append fun _ => trivial) h'⟩
  | applicationEnd =>
    subst hv
    exact ⟨_, _, parses_called _ _⟩
  | _ => trivial

/-- **No statement stands behind an open end**: what follows is taken as arguments. -/
theorem not_parses_behind {ss : List Stmt} {s : Stmt} (h : Parses (.statements none ss) m u [])
    (hopen : ¬ Closed u) : ¬ Parses (.statements none (ss ++ [s])) n (u ++ grouped) [] := by
  obtain ⟨ss', k, hlength, h'⟩ := extends_of_parses h rfl rfl hopen
  intro hjoined
  obtain ⟨hφ, -⟩ := hjoined.unique h' rfl
  cases hφ
  simp at hlength

/-! ## Texts -/

theorem parse_eq_ok_iff_cuts {source : String} {ss : List Stmt} : parse source = .ok ss ↔
    ∃ ls o, Cuts false source.toList ls o ∧
      ∃ m ≤ maxNesting, Parses (.statements none ss) m ls [] := by
  constructor
  · intro h
    obtain ⟨ls, hyields, hparses⟩ := parse_eq_ok_iff_parses.mp h
    obtain ⟨o, hcuts⟩ := cuts_of_yields hyields
    exact ⟨ls, o, hcuts, hparses⟩
  · rintro ⟨ls, o, hcuts, hparses⟩
    exact parse_eq_ok_iff_parses.mpr ⟨ls, yields_of_cuts hcuts rfl .start, hparses⟩

theorem Cuts.lexemes_unique {cs : List Char} {ls ls' : List Lexeme} {o o' : Bool}
    (h : Cuts false cs ls o) (h' : Cuts false cs ls' o') : ls = ls' := by
  obtain ⟨rfl, -⟩ := yields_of_cuts h rfl .start
  exact (yields_of_cuts h' rfl .start).1

theorem cuts_grouped : Cuts false "(b)".toList grouped false := by
  have hname : Cuts false "b".toList [.identifier "b"] false :=
    cuts_of_isPlain (isPlain_of_isIdentifier (by decide))
  exact cuts_leftParen (hname.append (border_of_mem (by decide)) cuts_rightParen)

/-- A text whose end does not reach what follows it. It does not end inside a comment, or nothing
stands in front of the comment that what follows could go on. -/
def Sealed (text : String) : Prop :=
  ∃ ls o, Cuts false text.toList ls o ∧ (o = true → Closed ls)

theorem sealed_of_closed {text : String} {ls : List Lexeme} (hy : (scan text).Yields ls)
    (h : Closed ls) : Sealed text := by
  obtain ⟨o, hcuts⟩ := cuts_of_yields hy
  exact ⟨ls, o, hcuts, fun _ => h⟩

theorem cuts_separated {cs cs' : List Char} {ls ls' : List Lexeme} {o o' : Bool}
    (h : Cuts false cs ls o) (h' : Cuts false cs' ls' o') :
    Cuts false (cs ++ ';' :: '\n' :: cs') (ls ++ if o then ls' else semicolon :: ls') o' := by
  refine h.append (border_of_mem (by decide)) ?_
  cases o with
  | false => exact cuts_symbol rfl (fun _ => rfl) (by decide) (cuts_blank (by decide) h')
  | true =>
    have hcomment : Cuts true ('\n' :: cs') ls' o' := cuts_true_cons h'
    exact cuts_true_cons hcomment

theorem toList_separated (text text' : String) :
    (text ++ ";\n" ++ text').toList = text.toList ++ ';' :: '\n' :: text'.toList := by
  simp

/-- A sealed text in front of another. -/
theorem parse_separated {text text' : String} {ss ss' : List Stmt} (h : parse text = .ok ss)
    (hsealed : Sealed text) (h' : parse text' = .ok ss') :
    parse (text ++ ";\n" ++ text') = .ok (ss ++ ss') := by
  obtain ⟨ls, _, hcuts, m, hm, hparses⟩ := parse_eq_ok_iff_cuts.mp h
  obtain ⟨ls', o', hcuts', n, hn, hparses'⟩ := parse_eq_ok_iff_cuts.mp h'
  obtain ⟨_, o, hown, hclosed⟩ := hsealed
  obtain rfl := hcuts.lexemes_unique hown
  have htext := cuts_separated hown hcuts'
  rw [← toList_separated] at htext
  refine parse_eq_ok_iff_cuts.mpr ⟨_, o', htext, max m n, max_le hm hn, ?_⟩
  cases o with
  | false => exact hparses.join rfl rfl (.statementsSkip (by simp) hparses') (Or.inl rfl)
  | true => exact hparses.join rfl rfl hparses' (Or.inr (hclosed rfl))

theorem parse_intercalate {texts : List String} {sss : List (List Stmt)}
    (h : List.Forall₂ (fun text ss => parse text = .ok ss) texts sss)
    (hsealed : ∀ text ∈ texts.dropLast, Sealed text) :
    parse (";\n".intercalate texts) = .ok sss.flatten := by
  induction h with
  | nil =>
    exact parse_eq_ok_iff_cuts.mpr ⟨[], false, cuts_nil, 0, Nat.zero_le _, .statementsEnd rfl⟩
  | @cons text ss texts sss h hs ih =>
    cases hs with
    | nil => simpa using h
    | @cons text' ss' texts sss h' hs =>
      rw [String.intercalate_cons_cons, List.flatten_cons]
      rw [List.dropLast_cons_cons] at hsealed
      obtain ⟨hfirst, hrest⟩ := List.forall_mem_cons.mp hsealed
      exact parse_separated h hfirst (ih hrest)

/-- Behind a text that is not sealed, a group is not read as a statement. -/
theorem parse_unsealed_ne {text : String} {ss : List Stmt} (h : parse text = .ok ss)
    (hopen : ¬ Sealed text) :
    parse (text ++ ";\n" ++ "(b)") ≠ .ok (ss ++ [.expr (.ident "b")]) := by
  intro hjoined
  obtain ⟨ls, o, hcuts, m, -, hparses⟩ := parse_eq_ok_iff_cuts.mp h
  obtain ⟨ls', o', hcuts', n, -, hparses'⟩ := parse_eq_ok_iff_cuts.mp hjoined
  obtain ⟨rfl, hls⟩ := Classical.not_imp.mp fun hclosed => hopen ⟨ls, o, hcuts, hclosed⟩
  have htext := cuts_separated hcuts cuts_grouped
  rw [← toList_separated] at htext
  obtain rfl := hcuts'.lexemes_unique htext
  exact not_parses_behind hparses hls hparses'

theorem parse_swallowed : parse ("a // x" ++ ";\n" ++ "b") =
    .error (.grammatical ⟨2, 1⟩ (.expected .separator (some (.identifier "b")))) := by
  cbv

theorem not_sealed_comment : ¬ Sealed "a // x" := by
  intro hsealed
  have hfirst : parse "a // x" = .ok [.expr (.ident "a")] := by cbv
  have hsecond : parse "b" = .ok [.expr (.ident "b")] := by cbv
  have hjoined := parse_separated hfirst hsealed hsecond
  rw [parse_swallowed] at hjoined
  cases hjoined

/-- **Instructions are read one after the other** if all but the last are sealed. One that is not
sealed is not read so in front of every other. -/
theorem Program.parse_source {σ : Type} :
    (∀ (p : Program σ) (sss : List (List Stmt)),
      List.Forall₂ (fun text ss => parse text = .ok ss) p.instructions sss →
      (∀ text ∈ p.instructions.dropLast, Sealed text) → parse p.source = .ok sss.flatten) ∧
    ∀ text ss, parse text = .ok ss → ¬ Sealed text → ∃ text' ss', parse text' = .ok ss' ∧
      ∀ p : Program σ, p.instructions = [text, text'] → parse p.source ≠ .ok (ss ++ ss') := by
  refine ⟨fun p sss h hsealed => parse_intercalate h hsealed, fun text ss h hopen => ?_⟩
  have hgrouped : parse "(b)" = .ok [.expr (.ident "b")] := by cbv
  refine ⟨"(b)", _, hgrouped, fun p hp => ?_⟩
  have hsource : p.source = text ++ ";\n" ++ "(b)" := by
    rw [Program.source, hp, String.intercalate_cons_cons, String.intercalate_singleton]
  rw [hsource]
  exact parse_unsealed_ne h hopen

/-- Comments behind a separator, behind a block and at the end. -/
def commentedProgram : Program Unit where
  name := "commented"
  locals := []
  library := .empty
  instructions := ["a = 1; // first", "if (a) \x7bb\x7d // second", "-c // third"]

theorem parse_commentedProgram :
    parse commentedProgram.source = .ok [.assign (.ident "a") (.int 1),
      .ite (.ident "a") [.expr (.ident "b")] [], .expr (.unary .neg (.ident "c"))] ∧
    ∃ text ss, parse text = .ok ss ∧ ∀ p : Program Unit, p.instructions = ["a // x", text] →
      parse p.source ≠ .ok ([.expr (.ident "a")] ++ ss) := by
  refine ⟨Program.parse_source.1 commentedProgram
    [[.assign (.ident "a") (.int 1)], [.ite (.ident "a") [.expr (.ident "b")] []],
      [.expr (.unary .neg (.ident "c"))]]
    (.cons (by cbv) (.cons (by cbv) (.cons (by cbv) .nil))) ?_,
    Program.parse_source.2 "a // x" _ (by cbv) not_sealed_comment⟩
  have hfirst : (scan "a = 1; // first").Yields
      [.identifier "a", .symbol .equals, .number "1", semicolon] := ⟨by cbv, ⟨1, 16⟩, by cbv⟩
  have hsecond : (scan "if (a) \x7bb\x7d // second").Yields
      [.identifier "if", .symbol .leftParen, .identifier "a", .symbol .rightParen,
        .symbol .leftBrace, .identifier "b", .symbol .rightBrace] := ⟨by cbv, ⟨1, 21⟩, by cbv⟩
  exact List.forall_mem_cons.mpr ⟨sealed_of_closed hfirst (by simp [Closed, Lexeme.Closes]),
    List.forall_mem_cons.mpr ⟨sealed_of_closed hsecond (by simp [Closed, Lexeme.Closes]),
      fun _ h => absurd h List.not_mem_nil⟩⟩

/-- A comment at the end of an instruction takes the separator along. -/
theorem parse_source_swallowed : ¬ ∀ (p : Program Unit) (sss : List (List Stmt)),
    List.Forall₂ (fun text ss => parse text = .ok ss) p.instructions sss →
      parse p.source = .ok sss.flatten := by
  intro h
  have hjoined := h ⟨"swallowed", [], .empty, ["a // x", "b"]⟩
    [[.expr (.ident "a")], [.expr (.ident "b")]] (.cons (by cbv) (.cons (by cbv) .nil))
  have hsource : (⟨"swallowed", [], .empty, ["a // x", "b"]⟩ : Program Unit).source =
      "a // x" ++ ";\n" ++ "b" := by
    rw [Program.source, String.intercalate_cons_cons, String.intercalate_singleton]
  rw [hsource, parse_swallowed] at hjoined
  cases hjoined

end Isa16
