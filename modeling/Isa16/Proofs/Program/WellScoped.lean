import Isa16.Program.Snippet
import Isa16.Proofs.Program.Simulation

/-!
# Well-scoped programs

* `Scope.WellScoped`, `Scope.IsPlace`, `Scope.InContext`: the names in an expression are used as
  they may be; it denotes a place; it leads into the machine state. None of them looks at how names
  are resolved.
* `Scope.Admits`, `Program.InOrder`: well-scoped statements and programs.
* `Succeeds`: a computation that may fail does not. `succeeds_bind` takes it apart.
* `succeeds_placeOf_ident`, `succeeds_placeOf_member`, `succeeds_placeOf_index`: which expressions
  are resolved to a place.
* `succeeds_code`, `succeeds_action`: what is well scoped is resolved, and nothing else is.
* **`Program.exists_compile_iff`**: a program is compiled exactly if it is in order.
-/

namespace Isa16

/-! ## Use of names -/

namespace Scope

variable {σ : Type}

mutual

/-- The names in an expression are used as they may be: values are read from places, functions are
called, and constructors are called with `new`. -/
inductive WellScoped (s : Scope σ) : Expr → Prop
  | int (n : Int64) : WellScoped s (.int n)
  | bool (b : Bool) : WellScoped s (.bool b)
  | text (t : String) : WellScoped s (.text t)
  | place {e : Expr} (h : IsPlace s e) : WellScoped s e
  | call {name : String} {f : HostFunction σ} {args : List Expr}
    (hf : s.library.get? name = some (.function f)) (hargs : ∀ e ∈ args, WellScoped s e) :
    WellScoped s (.call (.ident (Snippet.entry name)) args)
  | construct {name : String} {f : HostFunction σ} {args : List Expr}
    (hf : s.library.get? name = some (.construct f)) (hargs : ∀ e ∈ args, WellScoped s e) :
    WellScoped s (.construct (.ident (Snippet.entry name)) args)
  | unary {op : UnaryOp} {operand : Expr} (h : WellScoped s operand) :
    WellScoped s (.unary op operand)
  | binary {op : BinaryOp} {lhs rhs : Expr} (hl : WellScoped s lhs) (hr : WellScoped s rhs) :
    WellScoped s (.binary op lhs rhs)
  | conditional {condition whenTrue whenFalse : Expr} (hc : WellScoped s condition)
    (ht : WellScoped s whenTrue) (hf : WellScoped s whenFalse) :
    WellScoped s (.conditional condition whenTrue whenFalse)

/-- The expression denotes a place: a local without keys, an operand by exactly one key in brackets,
or what lies in the machine state behind at least one key. -/
inductive IsPlace (s : Scope σ) : Expr → Prop
  | slot {name : String} (h : name ∈ s.locals) : IsPlace s (.ident name)
  | operand {key : Expr} (h : WellScoped s key) : IsPlace s (.index (.ident operandsRoot) key)
  | member {object : Expr} {name : String} (h : InContext s object) :
    IsPlace s (.member object name)
  | index {object key : Expr} (h : InContext s object) (hkey : WellScoped s key) :
    IsPlace s (.index object key)

/-- The expression is the machine state or what lies in it behind keys. -/
inductive InContext (s : Scope σ) : Expr → Prop
  | root : InContext s (.ident contextRoot)
  | member {object : Expr} {name : String} (h : InContext s object) :
    InContext s (.member object name)
  | index {object key : Expr} (h : InContext s object) (hkey : WellScoped s key) :
    InContext s (.index object key)

end

/-- The names in a statement are used as they may be, in both branches of a conditional. What is
assigned to is a place. -/
inductive Admits (s : Scope σ) : Stmt → Prop
  | expr {e : Expr} (h : s.WellScoped e) : Admits s (.expr e)
  | assign {target value : Expr} (ht : s.IsPlace target) (hv : s.WellScoped value) :
    Admits s (.assign target value)
  | ite {condition : Expr} {whenTrue whenFalse : List Stmt} (hc : s.WellScoped condition)
    (ht : ∀ stmt ∈ whenTrue, Admits s stmt) (hf : ∀ stmt ∈ whenFalse, Admits s stmt) :
    Admits s (.ite condition whenTrue whenFalse)

end Scope

/-- The names that a program declares may be given, its text is read, and in every statement of the
text the names are used as they may be. -/
structure Program.InOrder {σ : Type} (p : Program σ) : Prop where
  entries : ∀ name ∈ p.library.names, isIdentifier name = true
  locals : ∀ name ∈ p.locals, isIdentifier name = true ∧ isKeyword name = false ∧
    name ≠ contextRoot ∧ name ≠ operandsRoot
  distinct : p.locals.Nodup
  statements : ∃ ss, parse p.source = .ok ss ∧
    ∀ stmt ∈ ss, Scope.Admits ⟨p.locals, p.library⟩ stmt

/-! ## Computations that may fail -/

section

variable {ε α β : Type}

/-- The computation does not fail. -/
def Succeeds (x : Except ε α) : Prop :=
  ∃ a, x = .ok a

theorem succeeds_pure (a : α) : Succeeds (pure a : Except ε α) :=
  ⟨a, rfl⟩

theorem not_succeeds_error {e : ε} : ¬ Succeeds (.error e : Except ε α) := fun ⟨_, h⟩ => by
  cases h

theorem succeeds_bind {x : Except ε α} {k : α → Except ε β} :
    Succeeds (x >>= k) ↔ ∃ a, x = .ok a ∧ Succeeds (k a) := by
  constructor
  · rintro ⟨b, h⟩
    obtain ⟨a, ha, hk⟩ := bind_eq_ok.mp h
    exact ⟨a, ha, b, hk⟩
  · rintro ⟨a, ha, b, hk⟩
    exact ⟨b, bind_eq_ok.mpr ⟨a, ha, hk⟩⟩

theorem succeeds_bind_iff {x : Except ε α} {k : α → Except ε β} {P : Prop}
    (h : ∀ a, Succeeds (k a) ↔ P) : Succeeds (x >>= k) ↔ Succeeds x ∧ P := by
  rw [succeeds_bind]
  constructor
  · rintro ⟨a, ha, hk⟩
    exact ⟨⟨a, ha⟩, (h a).mp hk⟩
  · rintro ⟨⟨a, ha⟩, hp⟩
    exact ⟨a, ha, (h a).mpr hp⟩

theorem succeeds_bind_pure {x : Except ε α} {f : α → β} :
    Succeeds (do let a ← x; return f a) ↔ Succeeds x := by
  rw [succeeds_bind_iff fun a => iff_true_intro (succeeds_pure (f a)), and_true]

theorem succeeds_map {x : Except ε α} {f : α → β} : Succeeds (x.map f) ↔ Succeeds x :=
  succeeds_bind_pure

end

/-! ## Places -/

theorem Scope.entryName?_eq_some_iff {name entry : String} :
    Scope.entryName? name = some entry ↔ name = Snippet.entry entry := by
  have hentry : (Snippet.entry entry).toList = '$' :: entry.toList := by
    show ("$" ++ entry).toList = _
    simp
  unfold Scope.entryName?
  rw [← String.toList_inj, hentry]
  split
  next cs hcs => rw [hcs, Option.some_inj, List.cons_inj_right, ← String.toList_inj,
      String.toList_ofList]
  next hne => exact iff_of_false (fun h => by cases h) (hne _)

namespace Scope

variable {σ : Type} {s : Scope σ} {misuse : CompileFault}

theorem isSome_slot? {name : String} : (s.slot? name).isSome = true ↔ name ∈ s.locals := by
  rw [slot?, List.isSome_finIdxOf?, List.contains_iff_mem]

/-- No local is called as one of the two roots. -/
def Free (s : Scope σ) : Prop :=
  ∀ name ∈ s.locals, name ≠ contextRoot ∧ name ≠ operandsRoot

theorem root_eq_context_iff {name : String} :
    s.root misuse (.ident name) = .ok .context ↔ name = contextRoot := by
  constructor
  · intro h
    rcases root_ident h with ⟨-, hname⟩ | ⟨hr, -⟩ | ⟨i, hr, -⟩
    · exact hname
    · cases hr
    · cases hr
  · intro h
    rw [root, if_pos h]

theorem succeeds_placeOf_ident (hs : s.Free) {name : String}
    {keys : Except CompileFault (List (Code σ s.slots))} :
    Succeeds (s.placeOf misuse (.ident name) keys) ↔ name ∈ s.locals := by
  constructor
  · rintro ⟨place, h⟩
    rcases placeOf_cases h with ⟨-, hne, -⟩ | ⟨key, index, he, -⟩ | ⟨name', i, he, hi, -⟩
    · exact absurd rfl (hne name)
    · cases he
    · cases he
      exact isSome_slot?.mp (Option.isSome_of_eq_some hi)
  · intro h
    obtain ⟨hcontext, hoperands⟩ := hs name h
    obtain ⟨i, hi⟩ := Option.isSome_iff_exists.mp (isSome_slot?.mpr h)
    have hroot : s.root misuse (.ident name) = .ok (.slot i) := by
      rw [root, if_neg hcontext, if_neg hoperands, hi]
    exact ⟨.slot i, by rw [placeOf, hroot]; rfl⟩

/-- Behind a dotted name lies a place if its object lies in the machine state. -/
theorem succeeds_placeOf_member {object : Expr} {name : String} :
    Succeeds (s.placeOf misuse (.member object name) (s.keys (.member object name))) ↔
      s.root misuse object = .ok .context ∧ Succeeds (s.keys object) := by
  have hkeys : Succeeds (s.keys (.member object name)) ↔ Succeeds (s.keys object) := by
    rw [keys, succeeds_bind_pure]
  rw [← hkeys]
  constructor
  · rintro ⟨place, h⟩
    rcases placeOf_cases h with ⟨hroot, -, cs, hcs, -⟩ | ⟨key, index, he, -⟩ | ⟨name', i, he, -⟩
    · rw [root] at hroot
      exact ⟨hroot, cs, hcs⟩
    · cases he
    · cases he
  · rintro ⟨hroot, cs, hcs⟩
    exact ⟨.context cs, by rw [placeOf, root, hroot, hcs]; rfl⟩

/-- Behind a key in brackets lies a place if its object lies in the machine state or is the
operands. -/
theorem succeeds_placeOf_index {object key : Expr} :
    Succeeds (s.placeOf misuse (.index object key) (s.keys (.index object key))) ↔
      ((s.root misuse object = .ok .context ∧ Succeeds (s.keys object)) ∨
        object = .ident operandsRoot) ∧ Succeeds (s.code key) := by
  have hkeys : Succeeds (s.keys (.index object key)) ↔
      Succeeds (s.keys object) ∧ Succeeds (s.code key) := by
    rw [keys, succeeds_bind_iff fun cs => succeeds_bind_pure]
  constructor
  · rintro ⟨place, h⟩
    rcases placeOf_cases h with ⟨hroot, -, cs, hcs, -⟩ | ⟨key', index, he, hcs, -⟩ |
      ⟨name, i, he, -⟩
    · rw [root] at hroot
      obtain ⟨hobject, hkey⟩ := hkeys.mp ⟨cs, hcs⟩
      exact ⟨Or.inl ⟨hroot, hobject⟩, hkey⟩
    · cases he
      exact ⟨Or.inr rfl, (hkeys.mp ⟨_, hcs⟩).2⟩
    · cases he
  · rintro ⟨⟨hroot, hobject⟩ | rfl, hkey⟩
    · obtain ⟨cs, hcs⟩ := hkeys.mpr ⟨hobject, hkey⟩
      exact ⟨.context cs, by rw [placeOf, root, hroot, hcs]; rfl⟩
    · obtain ⟨c, hc⟩ := hkey
      have hindex : s.keys (.index (.ident operandsRoot) key) = .ok [c] := by
        rw [keys, hc]
        rfl
      exact ⟨.operand c, by rw [placeOf, hindex]; rfl⟩

theorem entry_eq_ok_iff {callee : Expr} {entry : Entry σ} :
    s.entry callee = .ok entry ↔
      ∃ name, callee = .ident (Snippet.entry name) ∧ s.library.get? name = some entry := by
  constructor
  · intro h
    have hprovided := provided?_of_entry h
    cases callee with
    | ident name =>
      obtain ⟨bare, hname, hget⟩ := Option.bind_eq_some_iff.mp hprovided
      exact ⟨bare, by rw [entryName?_eq_some_iff.mp hname], hget⟩
    | _ => cases hprovided
  · rintro ⟨name, rfl, hget⟩
    simp only [Scope.entry, entryName?_eq_some_iff.mpr rfl, hget]

/-! ## Expressions -/

theorem inContext_ident_iff {name : String} :
    s.InContext (.ident name) ↔ name = contextRoot := by
  constructor
  · intro h
    cases h
    rfl
  · rintro rfl
    exact .root

theorem inContext_member_iff {object : Expr} {name : String} :
    s.InContext (.member object name) ↔ s.InContext object := by
  constructor
  · rintro (_ | h)
    exact h
  · exact .member

theorem inContext_index_iff {object key : Expr} :
    s.InContext (.index object key) ↔ s.InContext object ∧ s.WellScoped key := by
  constructor
  · rintro (_ | _ | ⟨h, hkey⟩)
    exact ⟨h, hkey⟩
  · rintro ⟨h, hkey⟩
    exact .index h hkey

theorem isPlace_ident_iff {name : String} : s.IsPlace (.ident name) ↔ name ∈ s.locals := by
  constructor
  · rintro ⟨h⟩
    exact h
  · exact .slot

theorem isPlace_member_iff {object : Expr} {name : String} :
    s.IsPlace (.member object name) ↔ s.InContext object := by
  constructor
  · intro h
    cases h with
    | member h => exact h
  · exact .member

theorem isPlace_index_iff {object key : Expr} :
    s.IsPlace (.index object key) ↔
      (s.InContext object ∨ object = .ident operandsRoot) ∧ s.WellScoped key := by
  constructor
  · intro h
    cases h with
    | operand h => exact ⟨Or.inr rfl, h⟩
    | index h hkey => exact ⟨Or.inl h, hkey⟩
  · rintro ⟨h | rfl, hkey⟩
    · exact .index h hkey
    · exact .operand hkey

/-- Names and what is written with keys are values if they denote places. -/
theorem wellScoped_path_iff {e : Expr}
    (he : (∃ name, e = .ident name) ∨ (∃ object name, e = .member object name) ∨
      ∃ object key, e = .index object key) : s.WellScoped e ↔ s.IsPlace e := by
  constructor
  · intro h
    rcases he with ⟨name, rfl⟩ | ⟨object, name, rfl⟩ | ⟨object, key, rfl⟩ <;>
    · cases h
      assumption
  · exact .place

mutual

/-- **Well-scoped expressions are resolved**, and no others. -/
theorem succeeds_code (hs : s.Free) : ∀ e : Expr, Succeeds (s.code e) ↔ s.WellScoped e
  | .int n => iff_of_true ⟨_, rfl⟩ (.int n)
  | .bool b => iff_of_true ⟨_, rfl⟩ (.bool b)
  | .text t => iff_of_true ⟨_, rfl⟩ (.text t)
  | .ident name => by
    rw [wellScoped_path_iff (Or.inl ⟨name, rfl⟩), isPlace_ident_iff, code, succeeds_map,
      succeeds_placeOf_ident hs]
  | .member object name => by
    have hkeys : (s.keys object).map (· ++ [.literal (.text name)]) =
        s.keys (.member object name) := by rw [keys]; rfl
    rw [wellScoped_path_iff (Or.inr (Or.inl ⟨object, name, rfl⟩)), isPlace_member_iff, code,
      succeeds_map, hkeys, succeeds_placeOf_member, succeeds_keys hs object]
  | .index object key => by
    have hkeys : (do
        let keys ← s.keys object
        let last ← s.code key
        return keys ++ [last]) = s.keys (.index object key) := by rw [keys]
    rw [wellScoped_path_iff (Or.inr (Or.inr ⟨object, key, rfl⟩)), isPlace_index_iff, code,
      succeeds_map, hkeys, succeeds_placeOf_index, succeeds_keys hs object, succeeds_code hs key]
  | .call callee args => by
    have ih := succeeds_codes hs args
    rw [code, succeeds_bind]
    constructor
    · rintro ⟨entry, hentry, h⟩
      obtain ⟨name, rfl, hget⟩ := entry_eq_ok_iff.mp hentry
      cases entry with
      | function f => exact .call hget (ih.mp (succeeds_bind_pure.mp h))
      | construct f => exact absurd h not_succeeds_error
    · intro h
      cases h with
      | call hf hargs =>
        exact ⟨_, entry_eq_ok_iff.mpr ⟨_, rfl, hf⟩, succeeds_bind_pure.mpr (ih.mpr hargs)⟩
      | place h => cases h
  | .construct callee args => by
    have ih := succeeds_codes hs args
    rw [code, succeeds_bind]
    constructor
    · rintro ⟨entry, hentry, h⟩
      obtain ⟨name, rfl, hget⟩ := entry_eq_ok_iff.mp hentry
      cases entry with
      | function f => exact absurd h not_succeeds_error
      | construct f => exact .construct hget (ih.mp (succeeds_bind_pure.mp h))
    · intro h
      cases h with
      | construct hf hargs =>
        exact ⟨_, entry_eq_ok_iff.mpr ⟨_, rfl, hf⟩, succeeds_bind_pure.mpr (ih.mpr hargs)⟩
      | place h => cases h
  | .unary op operand => by
    rw [code, succeeds_bind_pure, succeeds_code hs operand]
    constructor
    · exact .unary
    · intro h
      cases h with
      | unary h => exact h
      | place h => cases h
  | .binary op lhs rhs => by
    rw [code, succeeds_bind_iff fun l => succeeds_bind_pure, succeeds_code hs lhs,
      succeeds_code hs rhs]
    constructor
    · rintro ⟨hl, hr⟩
      exact .binary hl hr
    · intro h
      cases h with
      | binary hl hr => exact ⟨hl, hr⟩
      | place h => cases h
  | .conditional condition whenTrue whenFalse => by
    rw [code, succeeds_bind_iff fun c => succeeds_bind_iff fun t => succeeds_bind_pure,
      succeeds_code hs condition, succeeds_code hs whenTrue, succeeds_code hs whenFalse]
    constructor
    · rintro ⟨hc, ht, hf⟩
      exact .conditional hc ht hf
    · intro h
      cases h with
      | conditional hc ht hf => exact ⟨hc, ht, hf⟩
      | place h => cases h

theorem succeeds_keys (hs : s.Free) : ∀ (e : Expr) {misuse : CompileFault},
    s.root misuse e = .ok .context ∧ Succeeds (s.keys e) ↔ s.InContext e
  | .ident name, _ => by
    rw [root_eq_context_iff, inContext_ident_iff]
    exact and_iff_left ⟨[], rfl⟩
  | .member object name, _ => by
    rw [root, keys, succeeds_bind_pure, succeeds_keys hs object, inContext_member_iff]
  | .index object key, _ => by
    rw [root, keys, succeeds_bind_iff fun cs => succeeds_bind_pure, ← and_assoc,
      succeeds_keys hs object, succeeds_code hs key, inContext_index_iff]
  | .int _, _ | .bool _, _ | .text _, _ | .call _ _, _ | .construct _ _, _ | .unary _ _, _
  | .binary _ _ _, _ | .conditional _ _ _, _ =>
    iff_of_false (fun h => by cases h.1) (fun h => by cases h)

theorem succeeds_codes (hs : s.Free) : ∀ es : List Expr,
    Succeeds (s.codes es) ↔ ∀ e ∈ es, s.WellScoped e
  | [] => iff_of_true ⟨_, rfl⟩ (by simp)
  | e :: es => by
    rw [codes, succeeds_bind_iff fun c => succeeds_bind_pure, succeeds_code hs e,
      succeeds_codes hs es, List.forall_mem_cons]

end

/-! ## Statements -/

theorem succeeds_place (hs : s.Free) (target : Expr) :
    Succeeds (s.place target) ↔ s.IsPlace target := by
  cases target with
  | ident name => rw [place, succeeds_placeOf_ident hs, isPlace_ident_iff]
  | member object name =>
    rw [place, succeeds_placeOf_member, succeeds_keys hs object, isPlace_member_iff]
  | index object key =>
    rw [place, succeeds_placeOf_index, succeeds_keys hs object, succeeds_code hs key,
      isPlace_index_iff]
  | _ =>
    refine iff_of_false ?_ (fun h => by cases h)
    rintro ⟨place, h⟩
    rcases placeOf_cases h with ⟨hroot, -⟩ | ⟨key, index, he, -⟩ | ⟨name, i, he, -⟩
    · cases hroot
    · cases he
    · cases he

mutual

/-- **Statements are resolved** if the names in them are used as they may be, and no others. -/
theorem succeeds_action (hs : s.Free) : ∀ stmt : Stmt, Succeeds (s.action stmt) ↔ s.Admits stmt
  | .expr e => by
    rw [action, succeeds_bind_pure, succeeds_code hs e]
    constructor
    · exact .expr
    · rintro ⟨h⟩
      exact h
  | .assign target value => by
    rw [action, succeeds_bind_iff fun p => succeeds_bind_pure, succeeds_place hs, succeeds_code hs]
    constructor
    · rintro ⟨ht, hv⟩
      exact .assign ht hv
    · intro h
      cases h with
      | assign ht hv => exact ⟨ht, hv⟩
  | .ite condition whenTrue whenFalse => by
    rw [action, succeeds_bind_iff fun c => succeeds_bind_iff fun t => succeeds_bind_pure,
      succeeds_code hs, succeeds_actions hs whenTrue, succeeds_actions hs whenFalse]
    constructor
    · rintro ⟨hc, ht, hf⟩
      exact .ite hc ht hf
    · intro h
      cases h with
      | ite hc ht hf => exact ⟨hc, ht, hf⟩

theorem succeeds_actions (hs : s.Free) : ∀ stmts : List Stmt,
    Succeeds (s.actions stmts) ↔ ∀ stmt ∈ stmts, s.Admits stmt
  | [] => iff_of_true ⟨_, rfl⟩ (by simp)
  | stmt :: stmts => by
    rw [actions, succeeds_bind_iff fun a => succeeds_bind_pure, succeeds_action hs stmt,
      succeeds_actions hs stmts, List.forall_mem_cons]

end

end Scope

/-! ## Programs -/

theorem isFreeName_iff {name : String} :
    isFreeName name = true ↔ isIdentifier name = true ∧ isKeyword name = false ∧
      name ≠ contextRoot ∧ name ≠ operandsRoot := by
  simp [isFreeName, and_assoc]

theorem succeeds_checkLocals {seen names : List String} :
    Succeeds (checkLocals seen names) ↔
      (∀ name ∈ names, isFreeName name = true) ∧ names.Nodup ∧ ∀ name ∈ names, name ∉ seen := by
  induction names generalizing seen with
  | nil => exact iff_of_true ⟨_, rfl⟩ (by simp)
  | cons name names ih =>
    rw [checkLocals]
    split_ifs with hfree hseen
    · refine iff_of_false not_succeeds_error fun h => ?_
      exact h.2.2 name List.mem_cons_self (by simpa using hseen)
    · have hnew : name ∉ seen := by simpa using hseen
      rw [ih, List.forall_mem_cons, List.forall_mem_cons, List.nodup_cons]
      constructor
      · rintro ⟨hfrees, hnodup, hrest⟩
        have hnot : name ∉ names := fun hmem => hrest name hmem List.mem_cons_self
        exact ⟨⟨hfree, hfrees⟩, ⟨hnot, hnodup⟩, hnew, fun n hn h =>
          hrest n hn (List.mem_cons_of_mem _ h)⟩
      · rintro ⟨⟨-, hfrees⟩, ⟨hnot, hnodup⟩, -, hrest⟩
        refine ⟨hfrees, hnodup, fun n hn h => ?_⟩
        rcases List.mem_cons.mp h with rfl | h
        · exact hnot hn
        · exact hrest n hn h
    · refine iff_of_false not_succeeds_error fun h => ?_
      exact hfree (h.1 name List.mem_cons_self)

variable {σ : Type} {p : Program σ}

theorem ofProgram_eq_ok_iff {s : Scope σ} : Scope.ofProgram p = .ok s ↔
    ((∀ name ∈ p.library.names, isIdentifier name = true) ∧ Succeeds (checkLocals [] p.locals)) ∧
      s = ⟨p.locals, p.library⟩ := by
  unfold Scope.ofProgram
  split
  next name hname =>
    refine iff_of_false (fun h => by cases h) fun h => ?_
    have hbad := List.find?_some hname
    rw [h.1.1 name (List.mem_of_find?_eq_some hname)] at hbad
    cases hbad
  next hnone =>
    have hentries : ∀ name ∈ p.library.names, isIdentifier name = true := fun name hname => by
      simpa using List.find?_eq_none.mp hnone name hname
    rw [map_eq_ok]
    constructor
    · rintro ⟨u, hu, rfl⟩
      exact ⟨⟨hentries, u, hu⟩, rfl⟩
    · rintro ⟨⟨-, u, hu⟩, rfl⟩
      exact ⟨u, hu, rfl⟩

theorem free_of_locals (h : ∀ name ∈ p.locals, isFreeName name = true) :
    Scope.Free ⟨p.locals, p.library⟩ :=
  fun name hname => (isFreeName_iff.mp (h name hname)).2.2

theorem exists_compile_iff_routine : (∃ r, p.compile = .ok r) ↔ Succeeds p.routine := by
  rw [Program.compile]
  cases p.routine with
  | ok r => exact iff_of_true ⟨r, rfl⟩ ⟨r, rfl⟩
  | error e =>
    refine iff_of_false ?_ not_succeeds_error
    rintro ⟨r, h⟩
    cases h

/-- **A program is compiled exactly if it is in order.** So every fault in its names is found before
it runs, in branches that never run as well, and nothing else is refused. -/
theorem Program.exists_compile_iff : (∃ r, p.compile = .ok r) ↔ p.InOrder := by
  rw [exists_compile_iff_routine, routine, succeeds_bind]
  constructor
  · rintro ⟨s, hs, h⟩
    obtain ⟨⟨hentries, hlocals⟩, rfl⟩ := ofProgram_eq_ok_iff.mp hs
    obtain ⟨hfree, hnodup, -⟩ := succeeds_checkLocals.mp hlocals
    cases hss : parse p.source with
    | error e =>
      rw [hss] at h
      exact absurd h not_succeeds_error
    | ok ss =>
      rw [hss] at h
      exact ⟨hentries, fun name hname => isFreeName_iff.mp (hfree name hname), hnodup, ss, hss,
        (Scope.succeeds_actions (free_of_locals hfree) ss).mp (succeeds_bind_pure.mp h)⟩
  · rintro ⟨hentries, hlocals, hnodup, ss, hss, hadmits⟩
    have hfree : ∀ name ∈ p.locals, isFreeName name = true := fun name hname =>
      isFreeName_iff.mpr (hlocals name hname)
    have hcheck : Succeeds (checkLocals [] p.locals) :=
      succeeds_checkLocals.mpr ⟨hfree, hnodup, by simp⟩
    refine ⟨_, ofProgram_eq_ok_iff.mpr ⟨⟨hentries, hcheck⟩, rfl⟩, ?_⟩
    rw [hss]
    exact succeeds_bind_pure.mpr
      ((Scope.succeeds_actions (free_of_locals hfree) ss).mpr hadmits)

end Isa16
