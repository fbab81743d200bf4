import Isa16.Proofs.Program.Levels

/-!
# How deep the trees of read texts are

* `Expr.depth`, `Stmt.depth`: the number of nodes on the longest path of a tree.
* `peak`: how deep a primary expression gets with so many levels of nesting to spare.
* `Phrase.Within`: a phrase is no deeper than the levels to spare allow. A chain holds a level for
  each of its links, and its links are wrapped around a head that has given its own levels back.
* `Phrase.within_cons` and one lemma for each construct: a phrase is within its bound if its parts
  are, with the levels that the construct leaves to them.
* **`Parses.within`**: what is read is within the bound of the levels that it needs.
* **`depth_le_of_parse`**: no statement of a text is deeper than `deepest`.
-/

namespace Isa16

/-! ## Depth -/

mutual

/-- The number of nodes on the longest path of an expression. -/
def Expr.depth : Expr → Nat
  | .int _ | .bool _ | .text _ | .ident _ => 1
  | .member object _ => object.depth + 1
  | .index object key => max object.depth key.depth + 1
  | .call callee args => max callee.depth (Expr.depthOfAll args) + 1
  | .construct callee args => max callee.depth (Expr.depthOfAll args) + 1
  | .unary _ operand => operand.depth + 1
  | .binary _ lhs rhs => max lhs.depth rhs.depth + 1
  | .conditional condition whenTrue whenFalse =>
    max condition.depth (max whenTrue.depth whenFalse.depth) + 1

/-- The depth of the deepest of some expressions, `0` if there is none. -/
def Expr.depthOfAll : List Expr → Nat
  | [] => 0
  | e :: es => max e.depth (Expr.depthOfAll es)

end

mutual

/-- The number of nodes on the longest path of a statement. -/
def Stmt.depth : Stmt → Nat
  | .expr e => e.depth + 1
  | .assign target value => max target.depth value.depth + 1
  | .ite condition whenTrue whenFalse =>
    max condition.depth (max (Stmt.depthOfAll whenTrue) (Stmt.depthOfAll whenFalse)) + 1

/-- The depth of the deepest of some statements, `0` if there is none. -/
def Stmt.depthOfAll : List Stmt → Nat
  | [] => 0
  | s :: ss => max s.depth (Stmt.depthOfAll ss)

end

theorem Expr.depthOfAll_le_iff {es : List Expr} {n : Nat} :
    Expr.depthOfAll es ≤ n ↔ ∀ e ∈ es, e.depth ≤ n := by
  induction es with
  | nil => simp [Expr.depthOfAll]
  | cons e es ih => simp [Expr.depthOfAll, ih]

theorem Stmt.depthOfAll_le_iff {ss : List Stmt} {n : Nat} :
    Stmt.depthOfAll ss ≤ n ↔ ∀ s ∈ ss, s.depth ≤ n := by
  induction ss with
  | nil => simp [Stmt.depthOfAll]
  | cons s ss ih => simp [Stmt.depthOfAll, ih]

theorem Expr.depth_ofUnary_le (op : UnaryOp) (e : Expr) :
    (Expr.ofUnary op e).depth ≤ e.depth + 1 := by
  unfold Expr.ofUnary
  split
  · simp [Expr.depth]
  · simp [Expr.depth]

/-! ## Bounds -/

/-- The depth of the deepest primary expression with so many levels to spare. -/
def peak : Nat → Nat
  | 0 => 1
  | 1 => 2
  | r + 2 => peak (r + 1) + 11 * (r + 1) + 1

theorem peak_succ {r : Nat} (hr : 0 < r) : peak (r + 1) = peak r + 11 * r + 1 := by
  obtain ⟨r, rfl⟩ := Nat.exists_eq_succ_of_ne_zero hr.ne'
  rfl

theorem peak_lt_succ (r : Nat) : peak r < peak (r + 1) := by
  rcases Nat.eq_zero_or_pos r with rfl | hr
  · decide
  · rw [peak_succ hr]
    omega

theorem peak_mono {r s : Nat} (h : r ≤ s) : peak r ≤ peak s := by
  induction h with
  | refl => exact Nat.le_refl _
  | step h ih => exact ih.trans (peak_lt_succ _).le

/-- The depth of the deepest operand of a level with so many levels of nesting to spare: the ten
levels of operators and the calls and properties each add a whole chain. -/
def operandPeak (level r : Nat) : Nat :=
  (BinaryOp.levels - level) * r + (r + peak r)

theorem operandPeak_mono (level : Nat) {r s : Nat} (h : r ≤ s) :
    operandPeak level r ≤ operandPeak level s := by
  have hp := peak_mono h
  have hm := Nat.mul_le_mul_left (BinaryOp.levels - level) h
  unfold operandPeak
  omega

theorem operandPeak_eq {level : Nat} (h : level < BinaryOp.levels) (r : Nat) :
    operandPeak level r = r + operandPeak (level + 1) r := by
  obtain ⟨k, hk⟩ : ∃ k, BinaryOp.levels - level = k + 1 := ⟨BinaryOp.levels - level - 1, by omega⟩
  have hk' : BinaryOp.levels - (level + 1) = k := by omega
  unfold operandPeak
  rw [hk, hk', Nat.succ_mul]
  omega

theorem operandPeak_zero (r : Nat) : operandPeak 0 r = 11 * r + peak r := by
  unfold operandPeak BinaryOp.levels
  omega

theorem peak_le_operandPeak (level r : Nat) : r + peak r ≤ operandPeak level r := by
  unfold operandPeak
  omega

namespace Phrase

/-- The phrase is as deep as `r` levels to spare allow. -/
def Within (r : Nat) : Phrase → Prop
  | statements _ ss | branch ss => ∀ s ∈ ss, 0 < r ∧ s.depth ≤ peak (r - 1) + 1
  | statement s => 0 < r ∧ s.depth ≤ peak (r - 1) + 1
  | statementBody s | conditionalStatement s => s.depth ≤ peak r + 1
  | expression e => 0 < r ∧ e.depth ≤ peak r
  | binary level e => e.depth ≤ operandPeak level r
  | binaryChain level lhs held e =>
    level < BinaryOp.levels → lhs.depth ≤ held + operandPeak (level + 1) r →
      e.depth ≤ operandPeak level r
  | unary e | application e => e.depth ≤ r + peak r
  | applicationChain head held e => head.depth ≤ held + peak r → e.depth ≤ r + peak r
  | property object result => ∀ e ∈ result, e.depth ≤ max object.depth (peak r) + 1
  | primary e | construction e => e.depth ≤ peak r
  | constructionChain callee held e =>
    0 < held → callee.depth + 1 ≤ held + peak (r - 1) → e.depth ≤ r + peak (r - 1)
  | arguments es | argumentsAfter es => ∀ e ∈ es, 0 < r ∧ e.depth ≤ peak r

variable {r k held level : Nat} {e lhs rhs head head' callee callee' object key : Expr}

/-! ### Statements -/

theorem within_statement {s : Stmt} (h : (statementBody s).Within r) :
    (statement s).Within (r + 1) :=
  ⟨r.succ_pos, h⟩

theorem within_cons {closing : Option Symbol} {s : Stmt} {ss : List Stmt}
    (hs : (statement s).Within r) (hss : (statements closing ss).Within r) :
    (statements closing (s :: ss)).Within r := by
  intro t ht
  rcases List.mem_cons.mp ht with rfl | ht
  · exact hs
  · exact hss t ht

theorem within_assign {target value : Expr} (ht : (expression target).Within r)
    (hv : (expression value).Within r) : (statementBody (.assign target value)).Within r := by
  have h₁ := ht.2
  have h₂ := hv.2
  simp only [Within, Stmt.depth]
  omega

theorem within_expr (h : (expression e).Within r) : (statementBody (.expr e)).Within r := by
  have h₁ := h.2
  simp only [Within, Stmt.depth]
  omega

theorem depthOfAll_le_of_within {ss : List Stmt} (h : (branch ss).Within r) :
    Stmt.depthOfAll ss ≤ peak r := by
  refine Stmt.depthOfAll_le_iff.mpr fun s hs => ?_
  obtain ⟨hpos, hdepth⟩ := h s hs
  have hpeak := peak_lt_succ (r - 1)
  rw [Nat.sub_add_cancel hpos] at hpeak
  omega

theorem within_ite {condition : Expr} {t f : List Stmt} (hc : (expression condition).Within r)
    (ht : (branch t).Within r) (hf : (branch f).Within r) :
    (conditionalStatement (.ite condition t f)).Within r := by
  have h₁ := hc.2
  have h₂ := depthOfAll_le_of_within ht
  have h₃ := depthOfAll_le_of_within hf
  simp only [Within, Stmt.depth]
  omega

/-! ### Expressions and operators -/

theorem within_conditional {condition t f : Expr} (hc : (binary 0 condition).Within r)
    (ht : (expression t).Within r) (hf : (expression f).Within r) :
    (expression (.conditional condition t f)).Within (r + 1) := by
  obtain ⟨hpos, h₂⟩ := ht
  have h₁ : _ ≤ operandPeak 0 r := hc
  have h₃ := hf.2
  have hpeak := peak_succ hpos
  rw [operandPeak_zero] at h₁
  simp only [Within, Expr.depth]
  omega

theorem within_expression (h : (binary 0 e).Within r) : (expression e).Within (r + 1) := by
  have h₁ : _ ≤ operandPeak 0 r := h
  rw [operandPeak_zero] at h₁
  refine ⟨r.succ_pos, h₁.trans ?_⟩
  rcases Nat.eq_zero_or_pos r with rfl | hpos
  · decide
  · rw [peak_succ hpos]
    omega

theorem within_binaryStep {op : BinaryOp} (hk : k + (held + 1) ≤ r)
    (hr : (binary (level + 1) rhs).Within k)
    (h : (binaryChain level (.binary op lhs rhs) (held + 1) e).Within r) :
    (binaryChain level lhs held e).Within r := by
  intro hl hlhs
  have h₁ : _ ≤ operandPeak (level + 1) k := hr
  have h₂ := operandPeak_mono (level + 1) (show k ≤ r by omega)
  refine h hl ?_
  simp only [Expr.depth]
  omega

theorem within_binaryEnd (hheld : held ≤ r) : (binaryChain level e held e).Within r := by
  intro hl hlhs
  rw [operandPeak_eq hl]
  omega

theorem within_ofUnary {op : UnaryOp} (h : (unary e).Within r) :
    (unary (.ofUnary op e)).Within (r + 1) := by
  have h₁ : _ ≤ r + peak r := h
  have h₂ := (peak_lt_succ r).le
  refine (Expr.depth_ofUnary_le op e).trans ?_
  omega

/-! ### Applications and properties -/

theorem depthOfAll_le_of_arguments {es : List Expr} (h : (arguments es).Within r) :
    Expr.depthOfAll es ≤ peak r :=
  Expr.depthOfAll_le_iff.mpr fun e he => (h e he).2

theorem within_callStep {args : List Expr} (hk : k + (held + 1) ≤ r)
    (ha : (arguments args).Within k)
    (h : (applicationChain (.call head args) (held + 1) e).Within r) :
    (applicationChain head held e).Within r := by
  intro hhead
  have h₁ := depthOfAll_le_of_arguments ha
  have h₂ := peak_mono (show k ≤ r by omega)
  refine h ?_
  simp only [Expr.depth]
  omega

theorem within_propertyStep (hk : k + held ≤ r) (hp : (property head (some head')).Within k)
    (h : (applicationChain head' (held + 1) e).Within r) :
    (applicationChain head held e).Within r := by
  intro hhead
  have h₁ := hp head' rfl
  have h₂ := peak_mono (show k ≤ r by omega)
  refine h ?_
  omega

theorem within_applicationEnd (hheld : held ≤ r) : (applicationChain e held e).Within r := by
  intro hhead
  omega

theorem within_member {name : String} :
    (property object (some (.member object name))).Within r := by
  simp only [Within, Option.mem_some_iff, forall_eq', Expr.depth]
  omega

theorem within_index (h : (expression key).Within r) :
    (property object (some (.index object key))).Within r := by
  have h₁ := h.2
  simp only [Within, Option.mem_some_iff, forall_eq', Expr.depth]
  omega

theorem within_arguments_cons {arg : Expr} {args : List Expr} (ha : (expression arg).Within r)
    (h : (argumentsAfter args).Within r) : (argumentsAfter (arg :: args)).Within r := by
  intro e he
  rcases List.mem_cons.mp he with rfl | he
  · exact ha
  · exact h e he

/-! ### Constructions -/

theorem within_construction (hp : (primary callee).Within r)
    (h : (constructionChain callee 1 e).Within (r + 1)) : (construction e).Within (r + 1) := by
  have h₁ : _ ≤ peak r := hp
  have h₂ := h Nat.one_pos (by simp only [Nat.add_sub_cancel]; omega)
  refine h₂.trans ?_
  rcases Nat.eq_zero_or_pos r with rfl | hpos
  · decide
  · rw [peak_succ hpos, Nat.add_sub_cancel]
    omega

theorem within_constructionStep (hk : k + held ≤ r)
    (hp : (property callee (some callee')).Within k)
    (h : (constructionChain callee' (held + 1) e).Within r) :
    (constructionChain callee held e).Within r := by
  intro hpos hcallee
  have h₁ := hp callee' rfl
  have h₂ := peak_mono (show k ≤ r - 1 by omega)
  refine h (Nat.succ_pos _) ?_
  omega

theorem within_construct {args : List Expr} (hk : k + held ≤ r)
    (ha : (arguments args).Within k) :
    (constructionChain callee held (.construct callee args)).Within r := by
  intro hpos hcallee
  have h₁ := depthOfAll_le_of_arguments ha
  have h₂ := peak_mono (show k ≤ r - 1 by omega)
  simp only [Expr.depth]
  omega

end Phrase

/-! ## What is read -/

/-- A construct that claims a level leaves one level fewer to its parts. -/
theorem exists_succ_of_le {m k r : Nat} (h : 1 + m + k ≤ r) : ∃ s, r = s + 1 :=
  ⟨r - 1, by omega⟩

open Phrase in
/-- **What is read is within the bound** of the levels that it holds and needs, and of more. -/
theorem Parses.within {φ : Phrase} {m : Nat} {u v : List Lexeme} (h : Parses φ m u v) {r : Nat}
    (hr : m + φ.held ≤ r) : φ.Within r := by
  induction h generalizing r with
  | statementsEnd => exact fun _ hs => absurd hs List.not_mem_nil
  | statementsSkip _ _ ih => exact ih hr
  | statementsCons _ _ _ _ _ ihs ihss => exact within_cons (ihs (by grind)) (ihss (by grind))
  | statement _ ih =>
    obtain ⟨r, rfl⟩ := exists_succ_of_le hr
    exact within_statement (ih (by grind))
  | conditionalBody _ ih => exact ih hr
  | assignmentBody _ _ _ iht ihv => exact within_assign (iht (by grind)) (ihv (by grind))
  | expressionBody _ _ _ ih => exact within_expr (ih hr)
  | ifElse _ _ _ ihc iht ihf =>
    exact within_ite (ihc (by grind)) (iht (by grind)) (ihf (by grind))
  | ifOnly _ _ _ ihc iht =>
    exact within_ite (ihc (by grind)) (iht (by grind)) fun _ hs => absurd hs List.not_mem_nil
  | block _ ih => exact ih hr
  | single _ _ ih =>
    intro s hs
    rw [List.mem_singleton.mp hs]
    exact ih hr
  | choice _ _ _ ihc iht ihf =>
    obtain ⟨r, rfl⟩ := exists_succ_of_le hr
    exact within_conditional (ihc (by grind)) (iht (by grind)) (ihf (by grind))
  | plain _ _ ih =>
    obtain ⟨r, rfl⟩ := exists_succ_of_le hr
    exact within_expression (ih (by grind))
  | level hl _ _ ihf ih =>
    exact ih (by grind) hl ((ihf (by grind)).trans (Nat.le_add_left _ _))
  | noLevel _ _ ih => exact (ih hr).trans (peak_le_operandPeak _ _)
  | @binaryStep _ held _ _ _ _ _ _ _ _ _ _ _ _ _ ihr ih =>
    exact within_binaryStep (k := r - (held + 1)) (by grind) (ihr (by grind)) (ih (by grind))
  | binaryEnd => exact within_binaryEnd (by grind)
  | unaryStep _ _ ih =>
    obtain ⟨r, rfl⟩ := exists_succ_of_le hr
    exact within_ofUnary (ih (by grind))
  | unaryEnd _ _ ih => exact ih hr
  | application _ _ ihp ih => exact ih (by grind) ((ihp (by grind)).trans (Nat.le_add_left _ _))
  | @callStep _ _ _ held _ _ _ _ _ _ _ iha ih =>
    exact within_callStep (k := r - (held + 1)) (by grind) (iha (by grind)) (ih (by grind))
  | @propertyStep _ _ _ held _ _ _ _ _ _ _ ihp ih =>
    exact within_propertyStep (k := r - held) (by grind) (ihp (by grind)) (ih (by grind))
  | applicationEnd => exact within_applicationEnd (by grind)
  | member => exact within_member
  | index _ ih => exact within_index (ih hr)
  | noProperty => exact fun _ he => absurd he (Option.not_mem_none _)
  | group _ ih => exact (ih hr).2
  | number | text | trueWord | falseWord | ident => exact peak_mono (Nat.zero_le r)
  | new _ ih => exact ih hr
  | construction _ _ ihp ih =>
    obtain ⟨r, rfl⟩ := exists_succ_of_le hr
    exact within_construction (ihp (by grind)) (ih (by grind))
  | @constructionStep _ _ _ held _ _ _ _ _ _ _ ihp ih =>
    exact within_constructionStep (k := r - held) (by grind) (ihp (by grind)) (ih (by grind))
  | @constructionEnd _ _ held _ _ _ _ iha =>
    exact within_construct (k := r - held) (by grind) (iha (by grind))
  | noArguments => exact fun _ he => absurd he List.not_mem_nil
  | someArguments _ _ ih => exact ih hr
  | moreArguments _ _ iha ih => exact within_arguments_cons (iha (by grind)) (ih (by grind))
  | lastArgument _ iha =>
    exact within_arguments_cons (iha hr) fun _ he => absurd he List.not_mem_nil

/-- The depth of the deepest statement of a text. -/
def deepest : Nat :=
  peak (maxNesting - 1) + 1

/-- **No statement of a text is deeper than `deepest`.** -/
theorem depth_le_of_parse {source : String} {ss : List Stmt} (h : parse source = .ok ss) :
    ∀ s ∈ ss, s.depth ≤ deepest := by
  obtain ⟨ls, -, m, hm, hparses⟩ := parse_eq_ok_iff_parses.mp h
  intro s hs
  exact (hparses.within hm s hs).2

end Isa16
