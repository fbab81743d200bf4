import Isa16.Proofs.Program.Evaluation
import Isa16.Proofs.Program.Fragments
import Isa16.Proofs.Program.WellScoped

/-!
# Written assignments

* `propertyKey`, `Literal.value`: the key that a property's name stands for, and the value of a
  literal.
* `Scope.keys_properties`, `Scope.place_properties`: the properties of a written path are resolved
  to literals of their keys.
* `Scope.exists_code_literal`: a written literal is resolved to code of its value.
* `Routine.call_of_store`: an assignment whose keys and value are known beforehand only stores.
* `Fragment.parse_assignment_path`: how many properties a written assignment may have.
* **`Program.call_written`**: a program that is one written assignment to the machine state stores
  the literal at the path of the keys, and does nothing else.
-/

namespace Isa16

/-- The key that a property's name stands for: an index in canonical decimal digits, or the name
itself. -/
def propertyKey (name : String) : Key :=
  match canonicalIndex? name with
  | some n => .index (Int64.ofNat n)
  | none => .name name

/-- What a literal denotes. -/
def Literal.value : Literal → Value
  | int n => .int n
  | bool b => .bool b
  | text s => .text s

namespace Key

/-- The value that is this key between brackets. -/
def value : Key → Value
  | index i => .int i
  | name s => .text s

theorem ofValue_value (k : Key) : Key.ofValue k.value = .ok k := by
  cases k <;> rfl

/-- The code of a key that is known beforehand. -/
def code {σ : Type} {n : Nat} (k : Key) : Code σ n :=
  .literal k.value

end Key

/-- How a call ends that does nothing but store. -/
def Completion.ofStore {σ : Type} (operands : List Value) :
    EStateM.Result RunError σ Unit → Completion σ
  | .ok () state => ⟨.ok (), state, operands⟩
  | .error e state => ⟨.error e, state, operands⟩

/-! ## Paths -/

namespace Scope

variable {σ : Type} (s : Scope σ)

theorem root_propertyTree (misuse : CompileFault) (object : Expr) (name : String) :
    s.root misuse (propertyTree object name) = s.root misuse object := by
  unfold propertyTree
  split
  · rfl
  · split <;> rfl

theorem keys_propertyTree (object : Expr) (name : String) : s.keys (propertyTree object name) =
    (s.keys object).map (· ++ [(propertyKey name).code]) := by
  unfold propertyTree propertyKey
  cases canonicalIndex? name with
  | some n =>
    rw [keys, code]
    cases s.keys object <;> rfl
  | none =>
    dsimp only
    split
    · rw [keys]
      cases s.keys object <;> rfl
    · rw [keys, code]
      cases s.keys object <;> rfl

/-- **The keys of a path**, in the order in which its properties are written. -/
theorem keys_properties (properties : List String) {object : Expr}
    {cs : List (Code σ s.slots)} (h : s.keys object = .ok cs) :
    s.keys (properties.foldl propertyTree object) =
      .ok (cs ++ (properties.map propertyKey).map Key.code) := by
  induction properties generalizing object cs with
  | nil => rw [List.foldl_nil, List.map_nil, List.map_nil, List.append_nil, h]
  | cons name properties ih =>
    have hname : s.keys (propertyTree object name) =
        .ok (cs ++ [(propertyKey name).code]) := by
      rw [keys_propertyTree, h]
      rfl
    rw [List.foldl_cons, ih hname, List.map_cons, List.map_cons, List.append_assoc]
    rfl

theorem root_properties (misuse : CompileFault) (properties : List String) (object : Expr) :
    s.root misuse (properties.foldl propertyTree object) = s.root misuse object := by
  induction properties generalizing object with
  | nil => rfl
  | cons name properties ih => rw [List.foldl_cons, ih, root_propertyTree]

theorem properties_ne_ident {properties : List String} (hne : properties ≠ []) (object : Expr)
    (name : String) : properties.foldl propertyTree object ≠ .ident name := by
  rcases List.eq_nil_or_concat' properties with rfl | ⟨front, last, rfl⟩
  · exact absurd rfl hne
  · rw [List.foldl_append, List.foldl_cons, List.foldl_nil, propertyTree]
    split
    · exact Expr.noConfusion
    · split <;> exact Expr.noConfusion

theorem placeOf_context {s : Scope σ} {misuse : CompileFault} {e : Expr}
    {cs : List (Code σ s.slots)} (hroot : s.root misuse e = .ok .context)
    (hne : ∀ name, e ≠ .ident name) : s.placeOf misuse e (.ok cs) = .ok (.context cs) := by
  rw [placeOf, hroot]
  cases e with
  | ident name => exact absurd rfl (hne name)
  | _ => rfl

/-- **A path with a property is a place of the machine state.** -/
theorem place_properties {properties : List String} (hne : properties ≠ []) :
    s.place (properties.foldl propertyTree (.ident contextRoot)) =
      .ok (.context ((properties.map propertyKey).map Key.code)) := by
  have hroot : s.keys (.ident contextRoot) = .ok [] := rfl
  rw [place, s.keys_properties properties hroot, List.nil_append]
  refine placeOf_context ?_ (properties_ne_ident hne _)
  rw [root_properties]
  rfl

end Scope

/-! ## Literals -/

section

variable {σ : Type} {n : Nat} [MachineState σ] {state : σ} {ops : List Value}

theorem ends_evalKeys_map_code (keys : List Key) :
    (Code.evalKeys (keys.map (Key.code : Key → Code σ n))).Ends state ops (.ok keys) state := by
  induction keys with
  | nil => exact ends_evalKeys_nil
  | cons k keys ih => exact ends_evalKeys_cons (ends_literal _) k.ofValue_value ih

theorem Scope.exists_code_literal (s : Scope σ) (l : Literal) : ∃ c : Code σ s.slots,
    s.code l.tree = .ok c ∧ ∀ (state : σ) ops, c.eval.Ends state ops (.ok l.value) state := by
  cases l with
  | int n =>
    rw [Literal.tree]
    split
    next hmin =>
      refine ⟨.binary .sub (.literal (.int (-9223372036854775807))) (.literal (.int 1)), rfl,
        fun state ops => ?_⟩
      rw [hmin]
      exact ends_binary (ends_literal _) rfl (ends_literal _) rfl
    next => exact ⟨_, rfl, fun state ops => ends_literal _⟩
  | bool b => exact ⟨_, rfl, fun state ops => ends_literal _⟩
  | text s => exact ⟨_, rfl, fun state ops => ends_literal _⟩

/-- **A call of an assignment that only stores** ends as the store does. -/
theorem Routine.call_of_store {name : String} {keys : List Key} {value : Code σ n} {v : Value}
    (hv : ∀ (state : σ) ops, value.eval.Ends state ops (.ok v) state) (state : σ)
    (ops : List Value) :
    (Routine.mk name n [.assign (.context (keys.map Key.code)) value]).call state ops =
      Completion.ofStore ops (MachineState.store keys v state) := by
  have htarget : (Place.context (keys.map Key.code) : Place σ n).locate.Ends state ops
      (.ok (.context keys)) state := ends_context (ends_evalKeys_map_code keys)
  cases hs : MachineState.store keys v state with
  | ok _ state' =>
    exact Routine.call_of_ends (ends_runAll_singleton (ends_assign htarget (hv _ _) hs))
  | error e state' =>
    exact Routine.call_of_ends (ends_runAll_error (ends_assign_error htarget (hv _ _) hs))

end

/-! ## Texts -/

theorem Fragment.parses_assignment_path (properties : List String) (l : Literal) : ∃ ls,
    (scan (Snippet.assignment (Snippet.path contextRoot properties)
      (Snippet.literal l))).Yields ls ∧
    Parses (.statements none
      [.assign (properties.foldl propertyTree (.ident contextRoot)) l.tree])
      (2 + max properties.length l.levels) ls [] := by
  let t : Fragment := .path (.root contextRoot rfl rfl) properties
  let u : Fragment := .literal l
  refine ⟨_, yields_of_cuts (t.cuts_assignment u) rfl .start,
    (t.parses_statement_assign u).of_eq ?_⟩
  simp [t, u, Fragment.levels, Fragment.links]

/-- **A written assignment to a path** is read as what it denotes if it is not nested too deeply,
which the number of its properties decides. -/
theorem Fragment.parse_assignment_path (properties : List String) (l : Literal) :
    (properties.length + 2 ≤ maxNesting →
      parse (Snippet.assignment (Snippet.path contextRoot properties) (Snippet.literal l)) =
        .ok [.assign (properties.foldl propertyTree (.ident contextRoot)) l.tree]) ∧
    (maxNesting < properties.length + 2 → ∃ position,
      parse (Snippet.assignment (Snippet.path contextRoot properties) (Snippet.literal l)) =
        .error (.grammatical position .nestedTooDeeply)) := by
  obtain ⟨ls, hyields, hparses⟩ := parses_assignment_path properties l
  have hlevels := l.levels_le
  refine ⟨fun hle => parse_eq_ok_iff_parses.mpr ⟨ls, hyields, _, ?_, hparses⟩, fun hlt =>
    parse_eq_error_of_parses hyields hparses (by omega)⟩
  rw [maxNesting] at hle ⊢
  omega

namespace Program

variable {σ : Type} {p : Program σ}

/-- **Every path and every literal can be written.** A program that is one written assignment of a
literal to a path of the machine state is compiled if a level is left for the target and one for the
statement beside those of the properties. A call of it stores the literal at the keys and does
nothing else, whatever the machine state. With more properties it is nested too deeply. -/
theorem call_written [MachineState σ]
    (hentries : ∀ name ∈ p.library.names, isIdentifier name = true)
    (hlocals : ∀ name ∈ p.locals, isFreeName name = true) (hdistinct : p.locals.Nodup)
    {properties : List String} (hne : properties ≠ []) (l : Literal)
    (hp : p.instructions =
      [Snippet.assignment (Snippet.path contextRoot properties) (Snippet.literal l)]) :
    (properties.length + 2 ≤ maxNesting → ∃ r, p.compile = .ok r ∧ ∀ state operands,
      r.call state operands = Completion.ofStore operands
        (MachineState.store (properties.map propertyKey) l.value state)) ∧
    (maxNesting < properties.length + 2 → ∃ position,
      p.compile = .error ⟨p.name, .text (.grammatical position .nestedTooDeeply)⟩) := by
  have hsource : p.source =
      Snippet.assignment (Snippet.path contextRoot properties) (Snippet.literal l) := by
    rw [source, hp, String.intercalate_singleton]
  have hscope : Scope.ofProgram p = .ok ⟨p.locals, p.library⟩ :=
    ofProgram_eq_ok_iff.mpr
      ⟨⟨hentries, succeeds_checkLocals.mpr ⟨hlocals, hdistinct, by simp⟩⟩, rfl⟩
  obtain ⟨hshallow, hdeep⟩ := Fragment.parse_assignment_path properties l
  rw [← hsource] at hshallow hdeep
  refine ⟨fun hle => ?_, fun hlt => ?_⟩
  · obtain ⟨c, hc, hvalue⟩ := Scope.exists_code_literal ⟨p.locals, p.library⟩ l
    have hplace := Scope.place_properties ⟨p.locals, p.library⟩ hne
    have hbody : Scope.actions ⟨p.locals, p.library⟩
        [.assign (properties.foldl propertyTree (.ident contextRoot)) l.tree] =
        .ok [.assign (.context ((properties.map propertyKey).map Key.code)) c] := by
      rw [Scope.actions, Scope.action, hplace, hc]
      rfl
    refine ⟨_, compile_of_actions hscope (hshallow hle) hbody, fun state operands => ?_⟩
    exact Routine.call_of_store hvalue state operands
  · obtain ⟨position, herror⟩ := hdeep hlt
    exact ⟨position, compile_of_parse_error hscope herror⟩

/-- A property that is an index, others that only look like names or numbers, and the least
integer. -/
theorem call_written_least :
    let properties := ["if", "0", "007", "", "9223372036854775808", "$x"]
    let p : Program Cells := ⟨"least", ["t"], ∅, ["ctx[\"if\"][0][\"007\"][\"\"]" ++
      "[\"9223372036854775808\"][\"$x\"] = (-9223372036854775807 - 1)"]⟩
    properties.length + 2 ≤ maxNesting ∧ ∃ r, p.compile = .ok r ∧ ∀ state operands,
      r.call state operands = Completion.ofStore operands (MachineState.store
        [.name "if", .index 0, .name "007", .name "", .name "9223372036854775808", .name "$x"]
        (.int Int64.minValue) state) := by
  intro properties p
  have hdepth : properties.length + 2 ≤ maxNesting := by decide
  have hkeys : properties.map propertyKey =
      [.name "if", .index 0, .name "007", .name "", .name "9223372036854775808", .name "$x"] := by
    decide
  have hp : p.instructions = [Snippet.assignment (Snippet.path contextRoot properties)
      (Snippet.literal (.int Int64.minValue))] := by
    decide
  have hentries : ∀ name ∈ p.library.names, isIdentifier name = true := by
    decide
  obtain ⟨r, hr, hcall⟩ := (call_written hentries (by decide) (by decide) (by decide)
    (.int Int64.minValue) hp).1 hdepth
  rw [hkeys] at hcall
  exact ⟨hdepth, r, hr, hcall⟩

end Program

end Isa16
