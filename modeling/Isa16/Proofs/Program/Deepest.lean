import Isa16.Proofs.Program.Nesting
import Isa16.Proofs.Program.Spacing

/-!
# The deepest text

* `tower`: a primary expression that uses up all levels to spare. In each storey a chain of
  properties and a chain of operators of each level are wrapped around the storey above, which has
  given its levels back by then (`wrapping`).
* `parses_wrapped`, `parses_tower`: towers are read, and `depth_towerTree` says how deep they are.
* **`depth_le_iff`**: the depth of the statements of texts is bounded by `21548`, and by no
  smaller number.
-/

namespace Isa16

theorem ahead_scan {ls : List Lexeme} (h : ∀ l ∈ ls, l.IsPlain) :
    (scan (String.ofList (spaced ls))).cursor.Ahead ls := by
  unfold scan
  rw [String.toList_ofList]
  exact scanFrom_spaced h .start

/-! ## Chains -/

theorem stops_symbol {s : Symbol} (hs : s = .question ∨ s = .colon ∨ s = .rightParen) :
    Stops 0 (some (.symbol s)) := by
  rcases hs with rfl | rfl | rfl <;> exact stops_cons rfl (by decide) 0 []

theorem parses_applicationEnd {level : Nat} {u : List Lexeme} (hstop : Stops level u.head?)
    (e : Expr) (held : Nat) : Parses (.applicationChain e held e) 0 u u := by
  obtain ⟨-, hparen, hdot, hbracket⟩ := hstop
  exact .applicationEnd hparen (.noProperty hdot hbracket)

theorem parses_binary_one {level : Nat} {u : List Lexeme} (hl : level ≤ BinaryOp.levels)
    (hstop : Stops level u.head?) : Parses (.binary level (.int 1)) 0 (.number "1" :: u) u :=
  parses_binary_of_unary (parses_unary_of_primary (.number (by decide)) rfl hstop) hl hstop

theorem parses_expression_one {u : List Lexeme} (hstop : Stops 0 u.head?)
    (hquestion : u.head? ≠ some (.symbol .question)) :
    Parses (.expression (.int 1)) 1 (.number "1" :: u) u :=
  .plain (parses_binary_one (Nat.zero_le _) hstop) hquestion

/-- Properties of an object. -/
def properties : Nat → List Lexeme
  | 0 => []
  | k + 1 => .symbol .dot :: .identifier "a" :: properties k

/-- An object with its properties. -/
def withProperties : Nat → Expr → Expr
  | 0, e => e
  | k + 1, e => withProperties k (.member e "a")

/-- Each property holds a level. -/
theorem parses_properties {level : Nat} {rest : List Lexeme} (hstop : Stops level rest.head?)
    (k : Nat) (e : Expr) (held : Nat) :
    Parses (.applicationChain e held (withProperties k e)) k (properties k ++ rest) rest := by
  induction k generalizing e held with
  | zero => exact parses_applicationEnd hstop e held
  | succ k ih =>
    have hchain := ih (.member e "a") (held + 1)
    exact (Parses.propertyStep .member hchain).of_eq (by omega)

/-- One operator of each level. -/
def sampleSymbol : Nat → Symbol
  | 0 => .doublePipe
  | 1 => .doubleAmpersand
  | 2 => .pipe
  | 3 => .caret
  | 4 => .ampersand
  | 5 => .doubleEquals
  | 6 => .less
  | 7 => .shiftLeft
  | 8 => .plus
  | _ => .star

/-- What the sample of a level stands for. -/
def sampleOp (level : Nat) : BinaryOp :=
  (BinaryOp.ofSymbol? (sampleSymbol level)).getD .mul

/-- Operators of a level, each with an operand behind it. -/
def operators (level : Nat) : Nat → List Lexeme
  | 0 => []
  | k + 1 => .symbol (sampleSymbol level) :: .number "1" :: operators level k

/-- An operand with operators behind it. -/
def withOperators (level : Nat) : Nat → Expr → Expr
  | 0, e => e
  | k + 1, e => withOperators level k (.binary (sampleOp level) e (.int 1))

theorem infixOf?_sampleSymbol {level : Nat} (h : level < BinaryOp.levels) :
    Reader.infixOf? level (some (.symbol (sampleSymbol level))) = some (sampleOp level) := by
  have h' : level < 10 := h
  interval_cases level <;> rfl

theorem stops_sampleSymbol {level : Nat} (h : level < BinaryOp.levels) :
    Stops (level + 1) (some (.symbol (sampleSymbol level))) := by
  obtain ⟨hop, hlevel⟩ := Reader.infixOf?_eq_some.mp (infixOf?_sampleSymbol h)
  have hstops := stops_of_ofSymbol? hop
  rwa [hlevel] at hstops

theorem stops_operators {level : Nat} (hl : level < BinaryOp.levels) (k : Nat)
    {rest : List Lexeme} (hstop : Stops level rest.head?) :
    Stops (level + 1) (operators level k ++ rest).head? := by
  cases k with
  | zero => exact hstop.mono level.le_succ
  | succ k => exact stops_sampleSymbol hl

theorem parses_operators {level : Nat} {rest : List Lexeme} (hl : level < BinaryOp.levels)
    (hstop : Stops level rest.head?) (k : Nat) (e : Expr) (held : Nat) :
    Parses (.binaryChain level e held (withOperators level k e)) k (operators level k ++ rest)
      rest := by
  induction k generalizing e held with
  | zero => exact .binaryEnd (hstop.1 level le_rfl)
  | succ k ih =>
    have hoperand := parses_binary_one hl (stops_operators hl k hstop)
    have hchain := ih (.binary (sampleOp level) e (.int 1)) (held + 1)
    exact (Parses.binaryStep (infixOf?_sampleSymbol hl) hoperand hchain).of_eq (by omega)

/-! ## Towers -/

/-- The operators of the tightest levels, so many of each. -/
def storey (k : Nat) : Nat → List Lexeme
  | 0 => []
  | n + 1 => storey k n ++ operators (BinaryOp.levels - (n + 1)) k

/-- An operand with the operators of the tightest levels behind it. -/
def withStorey (k : Nat) : Nat → Expr → Expr
  | 0, e => e
  | n + 1, e => withOperators (BinaryOp.levels - (n + 1)) k (withStorey k n e)

theorem stops_storey {k n : Nat} {rest : List Lexeme} (hn : n ≤ BinaryOp.levels)
    (hstop : Stops (BinaryOp.levels - n) rest.head?) :
    Stops BinaryOp.levels (storey k n ++ rest).head? := by
  induction n generalizing rest with
  | zero => exact hstop
  | succ n ih =>
    have hl : BinaryOp.levels - (n + 1) < BinaryOp.levels := by omega
    have hsucc : BinaryOp.levels - (n + 1) + 1 = BinaryOp.levels - n := by omega
    have hfront := stops_operators hl k hstop
    rw [hsucc] at hfront
    rw [storey, List.append_assoc]
    exact ih (by omega) hfront

theorem parses_storey {k n : Nat} {u rest : List Lexeme} {e : Expr} (hn : n ≤ BinaryOp.levels)
    (he : Parses (.binary BinaryOp.levels e) k u (storey k n ++ rest))
    (hstop : Stops (BinaryOp.levels - n) rest.head?) :
    Parses (.binary (BinaryOp.levels - n) (withStorey k n e)) k u rest := by
  induction n generalizing rest with
  | zero => exact he
  | succ n ih =>
    have hl : BinaryOp.levels - (n + 1) < BinaryOp.levels := by omega
    have hsucc : BinaryOp.levels - (n + 1) + 1 = BinaryOp.levels - n := by omega
    have hfront := stops_operators hl k hstop
    rw [hsucc] at hfront
    rw [storey, List.append_assoc] at he
    have hfirst := ih (by omega) he hfront
    rw [← hsucc] at hfirst
    have hchain := parses_operators hl hstop k (withStorey k n e) 0
    exact (Parses.level hl hfirst hchain).of_eq (Nat.max_self k)

/-- What is wrapped around an operand in a storey, and the end of its conditional. -/
def wrapping (k : Nat) : List Lexeme :=
  properties k ++ (storey k BinaryOp.levels ++
    [.symbol .question, .number "1", .symbol .colon, .number "1"])

/-- The conditional of a storey. -/
def wrapped (k : Nat) (e : Expr) : Expr :=
  .conditional (withStorey k BinaryOp.levels (withProperties k e)) (.int 1) (.int 1)

/-- A primary expression that uses up so many levels. -/
def tower : Nat → List Lexeme
  | 0 => [.number "1"]
  | 1 => [.identifier "new", .identifier "a", .symbol .leftParen, .symbol .rightParen]
  | k + 2 => .symbol .leftParen :: (tower (k + 1) ++ wrapping (k + 1)) ++ [.symbol .rightParen]

/-- The tree of a tower. -/
def towerTree : Nat → Expr
  | 0 => .int 1
  | 1 => .construct (.ident "a") []
  | k + 2 => wrapped (k + 1) (towerTree (k + 1))

/-- A wrapping is read around the operand in front of it, which has given its levels back. -/
theorem parses_wrapped {k m : Nat} {u rest : List Lexeme} {e : Expr}
    (hunary : Reader.unaryOf? u.head? = none) (he : Parses (.primary e) m u (wrapping k ++ rest))
    (hm : m ≤ k) (hk : 0 < k) (hstop : Stops 0 rest.head?)
    (hquestion : rest.head? ≠ some (.symbol .question)) :
    Parses (.expression (wrapped k e)) (k + 1) u rest := by
  rw [wrapping, List.append_assoc, List.append_assoc] at he
  have hend : Stops 0 (Lexeme.symbol .question ::
      [.number "1", .symbol .colon, .number "1"] ++ rest).head? := stops_symbol (Or.inl rfl)
  have hstorey := stops_storey (k := k) le_rfl hend
  have hchain := parses_properties hstorey k e 0
  have happ : Parses (.unary (withProperties k e)) k u _ :=
    .unaryEnd hunary ((Parses.application he hchain).of_eq (Nat.max_eq_right hm))
  have hoperand := parses_binary_of_unary happ le_rfl hstorey
  have hcondition := parses_storey le_rfl hoperand hend
  have htrue := parses_expression_one (u := .symbol .colon :: .number "1" :: rest)
    (stops_symbol (Or.inr (Or.inl rfl))) (by simp)
  have hfalse := parses_expression_one hstop hquestion
  exact (Parses.choice hcondition htrue hfalse).of_eq (by omega)

theorem unaryOf?_tower (k : Nat) (ls : List Lexeme) :
    Reader.unaryOf? (tower k ++ ls).head? = none := by
  match k with
  | 0 | 1 | k + 2 => rfl

theorem parses_tower (k : Nat) (rest : List Lexeme) :
    Parses (.primary (towerTree k)) k (tower k ++ rest) rest := by
  induction k using tower.induct generalizing rest with
  | case1 => exact .number (by decide)
  | case2 =>
    have hcallee {u : List Lexeme} :
        Parses (.primary (.ident "a")) 0 (.identifier "a" :: u) u := .ident (by decide)
    exact .new (.construction hcallee (.constructionEnd .noArguments))
  | case3 k ih =>
    have hexpr := parses_wrapped (unaryOf?_tower _ _)
      (ih (wrapping (k + 1) ++ .symbol .rightParen :: rest)) le_rfl k.succ_pos
      (stops_symbol (Or.inr (Or.inr rfl))) (by simp)
    simpa [tower, towerTree] using Parses.group hexpr

/-! ## Depth -/

theorem Expr.depth_pos (e : Expr) : 0 < e.depth := by
  cases e <;> simp [Expr.depth]

theorem depth_withProperties (k : Nat) (e : Expr) : (withProperties k e).depth = e.depth + k := by
  induction k generalizing e with
  | zero => rfl
  | succ k ih =>
    rw [withProperties, ih, Expr.depth]
    omega

theorem depth_withOperators (level k : Nat) (e : Expr) :
    (withOperators level k e).depth = e.depth + k := by
  induction k generalizing e with
  | zero => rfl
  | succ k ih =>
    have hpos := e.depth_pos
    rw [withOperators, ih]
    simp only [Expr.depth]
    omega

theorem depth_withStorey (k n : Nat) (e : Expr) : (withStorey k n e).depth = e.depth + n * k := by
  induction n with
  | zero => simp [withStorey]
  | succ n ih =>
    rw [withStorey, depth_withOperators, ih, Nat.succ_mul]
    omega

theorem depth_wrapped (k : Nat) (e : Expr) : (wrapped k e).depth = e.depth + 11 * k + 1 := by
  have hpos := e.depth_pos
  simp only [wrapped, Expr.depth, depth_withStorey, depth_withProperties, BinaryOp.levels]
  omega

/-- A tower is as deep as a primary expression gets. -/
theorem depth_towerTree (k : Nat) : (towerTree k).depth = peak k := by
  induction k using tower.induct with
  | case1 => rfl
  | case2 => rfl
  | case3 k ih =>
    rw [towerTree, depth_wrapped, ih]
    rfl

/-! ## The text -/

theorem isPlain_one : (Lexeme.number "1").IsPlain := by
  intro rest hrest
  cases hrest with
  | ending => exact ⟨_, _, rfl, by decide, by decide, rfl⟩
  | space cs => exact ⟨_, _, rfl, by decide, by simp, rfl⟩

theorem isPlain_a : (Lexeme.identifier "a").IsPlain :=
  isPlain_identifier rfl (by decide) (List.forall_mem_nil _)

theorem isPlain_properties (k : Nat) : ∀ l ∈ properties k, l.IsPlain := by
  induction k with
  | zero => simp [properties]
  | succ k ih => simpa [properties, isPlain_symbol, isPlain_a] using ih

theorem isPlain_operators (level k : Nat) : ∀ l ∈ operators level k, l.IsPlain := by
  induction k with
  | zero => simp [operators]
  | succ k ih => simpa [operators, isPlain_symbol, isPlain_one] using ih

theorem isPlain_storey (k n : Nat) : ∀ l ∈ storey k n, l.IsPlain := by
  induction n with
  | zero => simp [storey]
  | succ n ih =>
    intro l hl
    rcases List.mem_append.mp hl with hl | hl
    · exact ih l hl
    · exact isPlain_operators _ k l hl

theorem isPlain_wrapping (k : Nat) : ∀ l ∈ wrapping k, l.IsPlain := by
  simp only [wrapping, List.forall_mem_append]
  exact ⟨isPlain_properties k, isPlain_storey k _, by simp [isPlain_symbol, isPlain_one]⟩

theorem isPlain_tower (k : Nat) : ∀ l ∈ tower k, l.IsPlain := by
  induction k using tower.induct with
  | case1 => simp [tower, isPlain_one]
  | case2 =>
    have hparts : ∀ d ∈ ['e', 'w'], isNamePart d = true :=
      List.forall_mem_cons.mpr ⟨by decide, List.forall_mem_singleton.mpr (by decide)⟩
    have hnew : (Lexeme.identifier "new").IsPlain :=
      isPlain_identifier (show "new".toList = ['n', 'e', 'w'] from rfl) (by decide) hparts
    simp [tower, isPlain_symbol, isPlain_a, hnew]
  | case3 k ih =>
    simp only [tower, List.forall_mem_append, List.cons_append, List.forall_mem_cons]
    exact ⟨isPlain_symbol _, ⟨ih, isPlain_wrapping _⟩, isPlain_symbol _, by simp⟩

/-- Reading a text that is one expression. -/
theorem parse_of_parses_expression {source : String} {ls : List Lexeme} {e : Expr} {m : Nat}
    (h : (scan source).Yields ls) (hsemicolon : ls.head? ≠ some (.symbol .semicolon))
    (hif : ls.head? ≠ some (.identifier "if")) (hnil : ls.head? ≠ none)
    (he : Parses (.expression e) m ls []) (hm : 1 + m ≤ maxNesting) :
    parse source = .ok [.expr e] := by
  have hstatement : Parses (.statement (.expr e)) (1 + m) ls [] :=
    .statement (.expressionBody hif he (by simp))
  exact parse_eq_ok_iff_parses.mpr ⟨ls, h, _, by omega,
    .statementsCons hnil hsemicolon hstatement (.closed rfl rfl) (.statementsEnd rfl)⟩

/-- A text of the greatest depth. -/
def deepestText : String :=
  String.ofList (spaced (tower (maxNesting - 2) ++ wrapping (maxNesting - 2)))

theorem parse_deepestText :
    parse deepestText = .ok [.expr (wrapped (maxNesting - 2) (towerTree (maxNesting - 2)))] := by
  have hplain : ∀ l ∈ tower (maxNesting - 2) ++ wrapping (maxNesting - 2), l.IsPlain :=
    List.forall_mem_append.mpr ⟨isPlain_tower _, isPlain_wrapping _⟩
  have hahead : (scan deepestText).cursor.Ahead
      (tower (maxNesting - 2) ++ (wrapping (maxNesting - 2) ++ [])) := by
    rw [List.append_nil]
    exact ahead_scan hplain
  have hprimary := parses_tower (maxNesting - 2) (wrapping (maxNesting - 2) ++ [])
  have hexpr := parses_wrapped (unaryOf?_tower _ _) hprimary le_rfl (by decide) (stops_none 0)
    (by simp)
  exact parse_of_parses_expression hahead (by decide) (by decide) (by decide) hexpr (by decide)

/-- **The depth of the statements of texts is bounded by `21548`, and by no smaller number.** -/
theorem depth_le_iff {n : Nat} :
    (∀ source ss, parse source = .ok ss → ∀ s ∈ ss, s.depth ≤ n) ↔ 21548 ≤ n := by
  have hdeepest : deepest = 21548 := by decide
  constructor
  · intro h
    have hle := h deepestText _ parse_deepestText _ (List.mem_singleton_self _)
    rw [Stmt.depth, depth_wrapped, depth_towerTree] at hle
    have hpeak : peak (maxNesting - 2) + 11 * (maxNesting - 2) + 1 + 1 = 21548 := by decide
    omega
  · intro h source ss hparse s hs
    have hle := depth_le_of_parse hparse s hs
    omega

set_option maxRecDepth 4000 in
/-- The levels of operators in front of an operand are given back before it is an operand itself. -/
theorem maxNesting_lt_depth :
    ¬ ∀ ss, parse "~~~~~~~~~~~~~~~~~~~~~~~~~~~~~~~~~~~~~~~~~~~~~~~~~~~~~~~~~~~~~~a + 1" =
      .ok ss → ∀ s ∈ ss, s.depth ≤ maxNesting := by
  intro h
  have hdepth : (parse "~~~~~~~~~~~~~~~~~~~~~~~~~~~~~~~~~~~~~~~~~~~~~~~~~~~~~~~~~~~~~~a + 1").map
      Stmt.depthOfAll = .ok 65 := by cbv
  cases hparse : parse "~~~~~~~~~~~~~~~~~~~~~~~~~~~~~~~~~~~~~~~~~~~~~~~~~~~~~~~~~~~~~~a + 1" with
  | error e =>
    rw [hparse] at hdepth
    cases hdepth
  | ok ss =>
    rw [hparse] at hdepth
    have hle := Stmt.depthOfAll_le_iff.mpr (h ss hparse)
    have hss : Stmt.depthOfAll ss = 65 := Except.ok.inj hdepth
    have hmax : maxNesting = 64 := rfl
    omega

end Isa16
