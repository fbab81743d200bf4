import Isa16.Chip8.Programs
import Isa16.Proofs.Program.Clauses
import Isa16.Proofs.Program.WellScoped
import Isa16.Proofs.Program.WordFunctions

/-!
# What the CHIP-8 programs are made of

* `Helper`: the library functions that the programs call.
* `Term`, `Formula`, `Command`: the expressions and statements of the programs, each with its text,
  its tree and its code.
* `instructions?_eq`: the instructions of an operation are the texts of its commands.
* `Term.code_tree`, `Command.action_tree`: the trees resolve to the code.
* **`compile_program?`**: every program compiles, to the code of its commands.
-/

namespace Isa16.Chip8

variable {σ : Type} [MachineState σ]

/-! ## Library functions -/

/-- The library functions on words that the programs call. -/
inductive Helper
  | add8
  | sub8
  | carry8
  | borrow8
  | shl8
  | shr8
  | add16

namespace Helper

/-- The name of a function. -/
def name : Helper → String
  | add8 => "add8"
  | sub8 => "sub8"
  | carry8 => "carry8"
  | borrow8 => "borrow8"
  | shl8 => "shl8"
  | shr8 => "shr8"
  | add16 => "add16"

/-- What a function computes. -/
def run : Helper → NamedFn
  | add8 => onWords 8 fun a b => .ofWord (Bits.add a b).value
  | sub8 => onWords 8 fun a b => .ofWord (Bits.sub a b).value
  | carry8 => onWords 8 fun a b => .ofNat (Bits.add a b).overflow.toNat
  | borrow8 => onWords 8 fun a b => .ofNat (Bits.sub a b).overflow.toNat
  | shl8 => onWordCount 8 Bits.shiftLeft
  | shr8 => onWordCount 8 Bits.shiftRight
  | add16 => onWords 16 fun a b => .ofWord (Bits.add a b).value

/-- The function as the host provides it. -/
def body (f : Helper) : HostFunction σ :=
  HostFunction.ofPure (f.run f.name)

theorem get?_library (f : Helper) :
    (library : Library σ).get? f.name = some (.function f.body) := by
  have hrandom : "random" ≠ f.name := by cases f <;> decide
  rw [library, Library.get?_insert, if_neg hrandom]
  cases f with
  | add16 => exact get?_arithmeticLibrary_sixteen "add" (by simp [wordFunctions, run])
  | add8 => exact get?_arithmeticLibrary_eight "add" (by simp [wordFunctions, run])
  | sub8 => exact get?_arithmeticLibrary_eight "sub" (by simp [wordFunctions, run])
  | carry8 => exact get?_arithmeticLibrary_eight "carry" (by simp [wordFunctions, run])
  | borrow8 => exact get?_arithmeticLibrary_eight "borrow" (by simp [wordFunctions, run])
  | shl8 => exact get?_arithmeticLibrary_eight "shl" (by simp [wordFunctions, run])
  | shr8 => exact get?_arithmeticLibrary_eight "shr" (by simp [wordFunctions, run])

theorem isIdentifier_name (f : Helper) : isIdentifier f.name = true := by
  cases f <;> decide

end Helper

/-! ## Expressions -/

/-- The name of a property that is written behind a dot. -/
def IsField (name : String) : Prop :=
  canonicalIndex? name = none ∧ (isIdentifier name && !isKeyword name) = true

instance (name : String) : Decidable (IsField name) :=
  inferInstanceAs (Decidable (_ ∧ _))

/-- The expressions of the programs, operators apart. -/
inductive Term
  | byte (n : Byte)
  /-- The local. -/
  | flag
  | part (name : String) (h : IsField name := by decide)
  | operand (i : Fin 2)
  | element (array : String) (index : Term) (h : IsField array := by decide)
  | flagRegister
  | call (f : Helper) (a b : Term)
  | random

namespace Term

/-- A term as its text is put together. -/
def fragment : Term → Fragment
  | byte n => .literal (.int (Int64.ofNat n.toNat))
  | flag => .root "flag" rfl rfl
  | part name _ => .path (.root contextRoot rfl rfl) [name]
  | operand i => .path (.root operandsRoot rfl rfl) [toString i.val]
  | element array index _ => .element (.path (.root contextRoot rfl rfl) [array]) index.fragment
  | flagRegister => .path (.root contextRoot rfl rfl) ["V", "15"]
  | call f a b => .call f.name f.isIdentifier_name [a.fragment, b.fragment]
  | random => .call "random" rfl []

/-- The tree of a term. -/
def tree : Term → Expr
  | byte n => .int (Int64.ofNat n.toNat)
  | flag => .ident "flag"
  | part name _ => .member (.ident contextRoot) name
  | operand i => .index (.ident operandsRoot) (.int (Int64.ofNat i))
  | element array index _ => .index (.member (.ident contextRoot) array) index.tree
  | flagRegister => .index (.member (.ident contextRoot) "V") (.int 15)
  | call f a b => .call (.ident (Snippet.entry f.name)) [a.tree, b.tree]
  | random => .call (.ident (Snippet.entry "random")) []

/-- The code of a term. -/
def code : Term → Code σ 1
  | byte n => .literal (.ofWord n)
  | flag => .read (.slot ⟨0, Nat.one_pos⟩)
  | part name _ => .read (.context [.literal (.text name)])
  | operand i => .read (.operand (.literal (.ofNat i)))
  | element array index _ => .read (.context [.literal (.text array), index.code])
  | flagRegister => .read (.context [.literal (.text "V"), .literal (.int 15)])
  | call f a b => .call f.body [a.code, b.code]
  | random => .call Chip8.random []

theorem propertyTree_field {object : Expr} (name : String) (h : IsField name) :
    propertyTree object name = .member object name := by
  rw [propertyTree, h.1]
  exact if_pos h.2

theorem propertyTree_index (object : Expr) {n : Nat} (h : n < 2 ^ 63) :
    propertyTree object (toString n) = .index object (.int (Int64.ofNat n)) := by
  rw [propertyTree, canonicalIndex?_eq_some.mpr ⟨rfl, h⟩]

theorem tree_fragment (t : Term) : t.fragment.tree = t.tree := by
  induction t with
  | byte n =>
    have hn : Int64.ofNat n.toNat ≠ Int64.minValue := by
      intro h
      have hint := congrArg Int64.toInt h
      rw [toInt_ofNat_toNat (by decide)] at hint
      have hmin : Int64.minValue.toInt < 0 := by decide
      omega
    exact if_neg hn
  | flag => rfl
  | part name h => exact propertyTree_field name h
  | operand i => exact propertyTree_index _ (by omega)
  | element array index h ih =>
    show Expr.index (propertyTree _ array) index.fragment.tree = _
    rw [propertyTree_field _ h, ih]
    rfl
  | flagRegister =>
    show propertyTree (propertyTree _ "V") (toString 15) = _
    rw [propertyTree_field "V" (by decide), propertyTree_index (n := 15) _ (by decide)]
    rfl
  | call f a b iha ihb =>
    show Expr.call _ [a.fragment.tree, b.fragment.tree] = _
    rw [iha, ihb]
    rfl
  | random => rfl

/-- The names that the programs may use. -/
def scope : Scope σ :=
  ⟨["flag"], library⟩

theorem entry_of_get? {name : String} {f : HostFunction σ}
    (h : (library : Library σ).get? name = some (.function f)) :
    (scope : Scope σ).entry (.ident (Snippet.entry name)) = .ok (.function f) := by
  rw [Scope.entry, Scope.entryName?_eq_some_iff.mpr rfl]
  dsimp only
  rw [scope, h]

/-- **The tree of a term resolves to its code.** -/
theorem code_tree (t : Term) : (scope : Scope σ).code t.tree = .ok t.code := by
  induction t with
  | byte n => rfl
  | flag => rfl
  | part name h => rfl
  | operand i => rfl
  | element array index h ih =>
    rw [tree, Scope.code, ih]
    rfl
  | flagRegister => rfl
  | call f a b iha ihb =>
    rw [tree, Scope.code, entry_of_get? f.get?_library, Scope.codes, Scope.codes, Scope.codes, iha,
      ihb]
    rfl
  | random =>
    have hentry : (library : Library σ).get? "random" = some (.function Chip8.random) := by
      rw [library, Library.get?_insert, if_pos rfl]
    rw [tree, Scope.code, entry_of_get? hentry]
    rfl

end Term

/-- A term, or an operator between two. -/
inductive Formula
  | term (t : Term)
  | joined (s : Symbol) (op : BinaryOp) (a b : Term) (h : BinaryOp.ofSymbol? s = some op := by rfl)

namespace Formula

/-- A formula as its text is put together. -/
def clause : Formula → Clause
  | term t => .single t.fragment
  | joined s op a b h => .joined a.fragment s op h b.fragment

/-- The tree of a formula. -/
def tree : Formula → Expr
  | term t => t.tree
  | joined _ op a b _ => .binary op a.tree b.tree

/-- The code of a formula. -/
def code : Formula → Code σ 1
  | term t => t.code
  | joined _ op a b _ => .binary op a.code b.code

theorem tree_clause (f : Formula) : f.clause.tree = f.tree := by
  cases f with
  | term t => exact t.tree_fragment
  | joined s op a b h => exact congrArg₂ (Expr.binary op) a.tree_fragment b.tree_fragment

theorem code_tree (f : Formula) : (Term.scope : Scope σ).code f.tree = .ok f.code := by
  cases f with
  | term t => exact t.code_tree
  | joined s op a b h =>
    rw [tree, Scope.code, a.code_tree, b.code_tree]
    rfl

end Formula

/-! ## Statements -/

/-- What the programs assign to. -/
inductive Target
  | flag
  | part (name : String) (h : IsField name := by decide)
  | element (array : String) (index : Term) (h : IsField array := by decide)
  | flagRegister

namespace Target

/-- A target as a term. -/
def term : Target → Term
  | flag => .flag
  | part name h => .part name h
  | element array index h => .element array index h
  | flagRegister => .flagRegister

/-- The place of a target. -/
def place : Target → Place σ 1
  | flag => .slot ⟨0, Nat.one_pos⟩
  | part name _ => .context [.literal (.text name)]
  | element array index _ => .context [.literal (.text array), index.code]
  | flagRegister => .context [.literal (.text "V"), .literal (.int 15)]

theorem place_tree (t : Target) : (Term.scope : Scope σ).place t.term.tree = .ok t.place := by
  cases t with
  | flag => rfl
  | part name h => rfl
  | element array index h =>
    rw [term, Term.tree, Scope.place, Scope.keys, index.code_tree]
    rfl
  | flagRegister => rfl

end Target

/-- The statements of the programs. -/
inductive Command
  | set (target : Target) (value : Formula)
  /-- Steps over the next instruction if the condition holds. -/
  | skip (condition : Formula)

namespace Command

/-- The value that `pc` takes when an instruction is skipped. -/
def skipped : Formula :=
  .term (.call .add16 (.part "pc") (.byte 2))

/-- The text of a command. -/
def text : Command → String
  | set target value => Snippet.assignment target.term.fragment.text value.clause.text
  | skip condition =>
    conditionalText (Target.part "pc").term.fragment skipped.clause condition.clause

/-- The tree of a command. -/
def tree : Command → Stmt
  | set target value => .assign target.term.tree value.tree
  | skip condition =>
    .ite condition.tree [.assign (Target.part "pc").term.tree skipped.tree] []

/-- The code of a command. -/
def action : Command → Action σ 1
  | set target value => .assign target.place value.code
  | skip condition => .branch condition.code [.assign (Target.part "pc").place skipped.code] []

theorem action_tree (c : Command) : (Term.scope : Scope σ).action c.tree = .ok c.action := by
  cases c with
  | set target value =>
    rw [tree, Scope.action, target.place_tree, value.code_tree]
    rfl
  | skip condition =>
    rw [tree, Scope.action, condition.code_tree, Scope.actions, Scope.actions, Scope.action,
      Target.place_tree, Formula.code_tree]
    rfl

/-- The most helpers in one part of a command. -/
def helpers : Command → Nat
  | set target value => max target.term.fragment.helpers value.clause.helpers
  | skip condition => max condition.clause.helpers skipped.clause.helpers

theorem parse_eq (c : Command) (h : c.helpers ≤ 20) : parse c.text = .ok [c.tree] := by
  cases c with
  | set target value =>
    obtain ⟨ht, hv⟩ := max_le_iff.mp h
    have hparse := parse_assignment target.term.fragment value.clause ht hv
    rwa [Term.tree_fragment, Formula.tree_clause] at hparse
  | skip condition =>
    obtain ⟨hc, hs⟩ := max_le_iff.mp h
    have hparse := parse_conditional (Target.part "pc").term.fragment skipped.clause
      condition.clause hc (by decide) hs
    rwa [Term.tree_fragment, Formula.tree_clause, Formula.tree_clause] at hparse

theorem sealed (c : Command) : Sealed c.text := by
  cases c with
  | set target value => exact ⟨_, false, cuts_assignment _ _, by simp⟩
  | skip condition => exact ⟨_, false, cuts_conditional _ _ _, by simp⟩

end Command

/-! ## The programs -/

namespace Term

/-- The register that the first operand names. -/
def x : Term :=
  .element "V" (.operand 0)

/-- The register that the second operand names. -/
def y : Term :=
  .element "V" (.operand 1)

end Term

namespace Command

/-- An assignment of a term. -/
def put (target : Target) (value : Term) : Command :=
  .set target (.term value)

/-- An assignment to the first register. -/
def setX (value : Formula) : Command :=
  .set (.element "V" (.operand 0)) value

/-- The flag is kept in the local while the first register is written. -/
def flagged (flag : Formula) (result : Term) : List Command :=
  [.set .flag flag, setX (.term result), put .flagRegister .flag]

end Command

open Command in
/-- The commands of an operation, by its opcode. -/
def commands? (opcode : Word) : Option (List Command) :=
  match opcode.toNat with
  | 0x00ee =>
    some [.set (.part "sp") (.joined .dash .sub (.part "sp") (.byte 1)),
      put (.part "pc") (.element "stack" (.part "sp"))]
  | 0x1000 => some [put (.part "pc") (.operand 0)]
  | 0x2000 =>
    some [put (.element "stack" (.part "sp")) (.part "pc"),
      .set (.part "sp") (.joined .plus .add (.part "sp") (.byte 1)), put (.part "pc") (.operand 0)]
  | 0x3000 => some [skip (.joined .doubleEquals .eq .x (.operand 1))]
  | 0x4000 => some [skip (.joined .bangEquals .ne .x (.operand 1))]
  | 0x5000 => some [skip (.joined .doubleEquals .eq .x .y)]
  | 0x9000 => some [skip (.joined .bangEquals .ne .x .y)]
  | 0x6000 => some [setX (.term (.operand 1))]
  | 0x7000 => some [setX (.term (.call .add8 .x (.operand 1)))]
  | 0x8000 => some [setX (.term .y)]
  | 0x8001 => some [setX (.joined .pipe .bitOr .x .y)]
  | 0x8002 => some [setX (.joined .ampersand .bitAnd .x .y)]
  | 0x8003 => some [setX (.joined .caret .bitXor .x .y)]
  | 0x8004 => some (flagged (.term (.call .carry8 .x .y)) (.call .add8 .x .y))
  | 0x8005 =>
    some (flagged (.joined .dash .sub (.byte 1) (.call .borrow8 .x .y)) (.call .sub8 .x .y))
  | 0x8006 => some (flagged (.joined .ampersand .bitAnd .x (.byte 1)) (.call .shr8 .x (.byte 1)))
  | 0x8007 =>
    some (flagged (.joined .dash .sub (.byte 1) (.call .borrow8 .y .x)) (.call .sub8 .y .x))
  | 0x800e => some (flagged (.term (.call .shr8 .x (.byte 7))) (.call .shl8 .x (.byte 1)))
  | 0xa000 => some [put (.part "I") (.operand 0)]
  | 0xb000 => some [put (.part "pc") (.call .add16 (.operand 0) (.element "V" (.byte 0)))]
  | 0xc000 => some [setX (.joined .ampersand .bitAnd .random (.operand 1))]
  | 0xf007 => some [setX (.term (.part "DT"))]
  | 0xf015 => some [put (.part "DT") .x]
  | 0xf018 => some [put (.part "ST") .x]
  | 0xf01e => some [put (.part "I") (.call .add16 (.part "I") .x)]
  | 0xf029 => some [.set (.part "I") (.joined .star .mul .x (.byte 5))]
  | _ => none

/-- The instructions of an operation are the texts of its commands. -/
theorem instructions?_eq (opcode : Word) :
    instructions? opcode = (commands? opcode).map (·.map Command.text) := by
  unfold instructions? commands?
  generalize opcode.toNat = n
  split
  case h_27 => simp [*]
  all_goals rfl

theorem helpers_le {opcode : Word} {cs : List Command} (h : commands? opcode = some cs) :
    ∀ c ∈ cs, c.helpers ≤ 20 := by
  unfold commands? at h
  split at h <;> cases h <;> decide

/-- The texts of commands are read as their trees. -/
theorem parse_commands {cs : List Command} (h : ∀ c ∈ cs, c.helpers ≤ 20) :
    parse (";\n".intercalate (cs.map Command.text)) = .ok (cs.map Command.tree) := by
  have hparse : List.Forall₂ (fun text ss => parse text = .ok ss) (cs.map Command.text)
      (cs.map fun c => [c.tree]) := by
    rw [List.forall₂_map_left_iff, List.forall₂_map_right_iff, List.forall₂_same]
    exact fun c hc => c.parse_eq (h c hc)
  rw [parse_intercalate hparse fun text htext => ?_]
  · rw [← List.flatMap_def, ← List.map_eq_flatMap]
  · obtain ⟨c, -, rfl⟩ := List.mem_map.mp (List.mem_of_mem_dropLast htext)
    exact c.sealed

theorem actions_tree (cs : List Command) :
    (Term.scope : Scope σ).actions (cs.map Command.tree) = .ok (cs.map Command.action) := by
  induction cs with
  | nil => rfl
  | cons c cs ih =>
    rw [List.map_cons, Scope.actions, c.action_tree, ih]
    rfl

theorem isIdentifier_of_mem_names {name : String} (h : name ∈ (library : Library σ).names) :
    isIdentifier name = true := by
  have hwords : ∀ n ∈ wordNames 8 ++ wordNames 16, isIdentifier n = true := by decide
  rw [Library.mem_names, library, Library.get?_insert] at h
  split at h
  next heq =>
    rw [← heq]
    decide
  next =>
    exact hwords name (List.mem_append.mpr
      (mem_names_arithmeticLibrary (σ := σ) (Library.mem_names.mpr h)))

theorem compile_commands (name : String) {cs : List Command} (h : ∀ c ∈ cs, c.helpers ≤ 20) :
    (⟨name, ["flag"], library, cs.map Command.text⟩ : Program σ).compile =
      .ok ⟨name, 1, cs.map Command.action⟩ := by
  have hnames : (library : Library σ).names.find? (!isIdentifier ·) = none := by
    rw [List.find?_eq_none]
    intro name hname
    simp [isIdentifier_of_mem_names hname]
  have hscope : Scope.ofProgram (⟨name, ["flag"], library, cs.map Command.text⟩ : Program σ) =
      .ok Term.scope := by
    rw [Scope.ofProgram, hnames]
    rfl
  exact Program.compile_of_actions hscope (parse_commands h) (actions_tree cs)

/-- **Every program compiles**, to the code of its commands. -/
theorem compile_program? {op : Operation} {p : Program σ} (h : program? op = some p) :
    ∃ cs, commands? op.opcode = some cs ∧
      p.compile = .ok ⟨p.name, 1, cs.map Command.action⟩ := by
  rw [program?, instructions?_eq, Option.map_map, Option.map_eq_some_iff] at h
  obtain ⟨cs, hcs, rfl⟩ := h
  exact ⟨cs, hcs, compile_commands _ (helpers_le hcs)⟩

end Isa16.Chip8
