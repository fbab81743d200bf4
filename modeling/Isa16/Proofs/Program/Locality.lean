import Isa16.Proofs.Program.StoreLaws
import Isa16.Proofs.Program.Uses

/-!
# Locality of programs

* `Cells.store_congr`: a store under a name depends on what stands behind that name, and changes
  nothing else.
* `Local`: two machine states that agree under some names and have changed under others only.
* **`Program.call_local`**: a program without calls whose paths begin with dotted names reads and
  writes under those names only.
-/

namespace Isa16

/-! ## Stores under a name -/

namespace Cells

variable {c d : Cells} {name : String}

theorem store_congr (h : c.get? name = d.get? name) (keys : List Key) (v : Value) :
    (∃ e, c.store (.name name :: keys) v = .error e ∧ d.store (.name name :: keys) v = .error e) ∨
      ∃ cell, c.store (.name name :: keys) v = .ok (c.put name cell) ∧
        d.store (.name name :: keys) v = .ok (d.put name cell) := by
  rcases keys with _ | ⟨key, _ | ⟨_, _⟩⟩
  · rw [store, store, h]
    split
    · exact Or.inl ⟨_, rfl, rfl⟩
    · exact Or.inr ⟨_, rfl, rfl⟩
  · cases key with
    | name => exact Or.inl ⟨_, rfl, rfl⟩
    | index i =>
      rw [store, store]
      cases i.toInt.toNat? with
      | none => exact Or.inl ⟨_, rfl, rfl⟩
      | some index =>
        simp only [Option.bind_some, setElement?, array?_congr h]
        cases d.array? name with
        | none => exact Or.inl ⟨_, rfl, rfl⟩
        | some vs =>
          dsimp only
          split_ifs
          · exact Or.inr ⟨_, rfl, rfl⟩
          · exact Or.inl ⟨_, rfl, rfl⟩
  · cases key <;> exact Or.inl ⟨_, rfl, rfl⟩

end Cells

/-! ## Two machine states -/

/-- The states agree under the names that are used, and under those that are no targets they are
what they were. -/
structure Local (uses targets : List Use) (start start' c d : Cells) : Prop where
  agree : ∀ name, .name name ∈ uses → c.get? name = d.get? name
  left : ∀ name, .name name ∉ targets → c.get? name = start.get? name
  right : ∀ name, .name name ∉ targets → d.get? name = start'.get? name

variable {uses targets : List Use} {start start' : Cells} {name : String} {path : List Key}

theorem respects_load (hu : .name name ∈ uses) (hpath : path.head? = some (.name name)) :
    Respects (Local uses targets start start') (MachineState.load path : Effect Cells Value) := by
  intro c d h
  obtain ⟨keys, rfl⟩ := List.head?_eq_some_iff.mp hpath
  have hload := Cells.load_congr (h.agree name hu) keys
  cases hd : d.load (.name name :: keys) with
  | ok v =>
    rw [Cells.load_of_ok (hload.trans hd), Cells.load_of_ok hd]
    exact .ok h
  | error e =>
    rw [Cells.load_of_error (hload.trans hd), Cells.load_of_error hd]
    exact .error h

theorem Local.put {c d : Cells} (h : Local uses targets start start' c d)
    (hw : .name name ∈ targets) (cell : Cell) :
    Local uses targets start start' (c.put name cell) (d.put name cell) := by
  refine ⟨fun n hn => ?_, fun n hn => ?_, fun n hn => ?_⟩
  · rw [Cells.get?_put, Cells.get?_put, h.agree n hn]
  all_goals
    have hne : name ≠ n := by
      rintro rfl
      exact hn hw
    rw [Cells.get?_put, if_neg hne]
  · exact h.left n hn
  · exact h.right n hn

theorem respects_store (hu : .name name ∈ uses) (hw : .name name ∈ targets)
    (hpath : path.head? = some (.name name)) (v : Value) :
    Respects (Local uses targets start start') (MachineState.store path v : Effect Cells Unit) := by
  intro c d h
  obtain ⟨keys, rfl⟩ := List.head?_eq_some_iff.mp hpath
  rcases Cells.store_congr (h.agree name hu) keys v with ⟨e, hc, hd⟩ | ⟨cell, hc, hd⟩
  · rw [Cells.store_of_error hc, Cells.store_of_error hd]
    exact .error h
  · rw [Cells.store_of_ok hc, Cells.store_of_ok hd]
    exact .ok (h.put hw cell)

/-! ## Programs -/

theorem targetsOfAll_subset_usesOfAll {ss : List Stmt} (h : ∀ s ∈ ss, s.targets ⊆ s.uses) :
    Stmt.targetsOfAll ss ⊆ Stmt.usesOfAll ss := by
  induction ss with
  | nil => exact List.nil_subset _
  | cons s ss ih =>
    obtain ⟨hs, hss⟩ := List.forall_mem_cons.mp h
    rw [Stmt.targetsOfAll, Stmt.usesOfAll]
    exact List.append_subset.mpr
      ⟨List.Subset.trans hs (by simp), List.Subset.trans (ih hss) (by simp)⟩

theorem targets_subset_uses : ∀ s : Stmt, s.targets ⊆ s.uses
  | .expr _ => List.nil_subset _
  | .assign target value => fun u hu =>
    List.mem_append_left _ (mem_uses_of_opening? (Option.mem_toList.mp hu))
  | .ite condition whenTrue whenFalse => by
    have htrue := targetsOfAll_subset_usesOfAll fun s (_ : s ∈ whenTrue) => targets_subset_uses s
    have hfalse := targetsOfAll_subset_usesOfAll fun s (_ : s ∈ whenFalse) => targets_subset_uses s
    rw [Stmt.targets, Stmt.uses]
    exact List.append_subset.mpr
      ⟨List.Subset.trans htrue (by simp), List.Subset.trans hfalse (by simp)⟩

theorem call_local_of_agree {p : Program Cells} {r : Routine Cells} {ss : List Stmt}
    (hr : p.compile = .ok r) (hss : parse p.source = .ok ss)
    (hnames : ∀ u ∈ Stmt.usesOfAll ss, ∃ name, u = .name name) {c d : Cells}
    (h : ∀ name, .name name ∈ Stmt.usesOfAll ss → c.get? name = d.get? name)
    (operands : List Value) :
    (r.call c operands).result = (r.call d operands).result ∧
      (r.call c operands).operands = (r.call d operands).operands ∧
      Local (Stmt.usesOfAll ss) (Stmt.targetsOfAll ss) c d
        (r.call c operands).state (r.call d operands).state := by
  have huses : RespectsUses (Local (Stmt.usesOfAll ss) (Stmt.targetsOfAll ss) c d) p.library
      (Stmt.usesOfAll ss) := by
    refine ⟨fun u hu path hopens => ?_, fun callee hcall => ?_⟩
    · obtain ⟨name, rfl⟩ := hnames u hu
      exact respects_load hu hopens
    · obtain ⟨name, hname⟩ := hnames _ hcall
      cases hname
  have htargets : RespectsTargets (Local (Stmt.usesOfAll ss) (Stmt.targetsOfAll ss) c d)
      (Stmt.targetsOfAll ss) := by
    intro u hu path v hopens
    have hused := targetsOfAll_subset_usesOfAll (fun s _ => targets_subset_uses s) hu
    obtain ⟨name, rfl⟩ := hnames u hused
    exact respects_store hused hu hopens v
  obtain ⟨hresult, hoperands, -, hlocal⟩ :=
    Program.call_alike hr hss huses htargets ⟨h, fun _ _ => rfl, fun _ _ => rfl⟩ operands
  exact ⟨hresult, hoperands, hlocal⟩

/-- **A program without calls whose paths begin with dotted names is local**: it changes nothing
under other names than those of its targets, and what it does depends on nothing but its operands
and what stands behind the names of its paths. -/
theorem Program.call_local {p : Program Cells} {r : Routine Cells} {ss : List Stmt}
    (hr : p.compile = .ok r) (hss : parse p.source = .ok ss)
    (hnames : ∀ u ∈ Stmt.usesOfAll ss, ∃ name, u = .name name) :
    (∀ c operands name, .name name ∉ Stmt.targetsOfAll ss →
      (r.call c operands).state.get? name = c.get? name) ∧
    ∀ c d operands, (∀ name, .name name ∈ Stmt.usesOfAll ss → c.get? name = d.get? name) →
      (r.call c operands).result = (r.call d operands).result ∧
        (r.call c operands).operands = (r.call d operands).operands ∧
        ∀ name, .name name ∈ Stmt.usesOfAll ss →
          (r.call c operands).state.get? name = (r.call d operands).state.get? name := by
  constructor
  · intro c operands name hname
    obtain ⟨-, -, hlocal⟩ := call_local_of_agree hr hss hnames (c := c) (fun _ _ => rfl) operands
    exact hlocal.left name hname
  · intro c d operands h
    obtain ⟨hresult, hoperands, hlocal⟩ := call_local_of_agree hr hss hnames h operands
    exact ⟨hresult, hoperands, hlocal.agree⟩

/-- A program with a path inside a path and a branch on what it has read. -/
def pickProgram : Program Cells where
  name := "pick"
  locals := []
  library := .empty
  instructions := ["ops[0] = ctx.v[ctx.i]", "if (ops[0]) \x7b ctx.out = ops[0] + 1 \x7d",
    "ctx.v[ctx.out] = 1"]

/-- Its routine. -/
def pickRoutine : Routine Cells where
  name := "pick"
  slots := 0
  body := [
    .assign (.operand (.literal (.int 0)))
      (.read (.context [.literal (.text "v"), .read (.context [.literal (.text "i")])])),
    .branch (.read (.operand (.literal (.int 0))))
      [.assign (.context [.literal (.text "out")])
        (.binary .add (.read (.operand (.literal (.int 0)))) (.literal (.int 1)))] [],
    .assign (.context [.literal (.text "v"), .read (.context [.literal (.text "out")])])
      (.literal (.int 1))]

/-- Its statements. -/
def pickStatements : List Stmt :=
  let first := Expr.index (.ident "ops") (.int 0)
  let out := Expr.member (.ident "ctx") "out"
  [.assign first (.index (.member (.ident "ctx") "v") (.member (.ident "ctx") "i")),
    .ite first [.assign out (.binary .add first (.int 1))] [],
    .assign (.index (.member (.ident "ctx") "v") out) (.int 1)]

/-- What stands behind another name is kept and plays no part. -/
theorem call_pickProgram :
    let c : Cells := (∅ : Cells).setZeros "v" 2
      |>.setScalar "i" (.int 0)
      |>.setScalar "out" (.int 1)
    let d := c.setScalar "secret" (.int 7)
    pickProgram.compile = .ok pickRoutine ∧
      (pickRoutine.call d [.int 5]).state.get? "secret" = some (.scalar (.int 7)) ∧
      (pickRoutine.call c [.int 5]).result = (pickRoutine.call d [.int 5]).result ∧
      (pickRoutine.call c [.int 5]).operands = (pickRoutine.call d [.int 5]).operands ∧
      (pickRoutine.call c [.int 5]).state.get? "v" =
        (pickRoutine.call d [.int 5]).state.get? "v" := by
  intro c d
  have hcompile : pickProgram.compile = .ok pickRoutine := by cbv
  have hparse : parse pickProgram.source = .ok pickStatements := by cbv
  have huses : Stmt.usesOfAll pickStatements =
      [.name "v", .name "i", .name "out", .name "v", .name "out"] := rfl
  have htargets : Stmt.targetsOfAll pickStatements = [.name "out", .name "v"] := rfl
  obtain ⟨hkept, hsame⟩ := Program.call_local hcompile hparse (by simp [huses])
  have hagree : ∀ name, .name name ∈ Stmt.usesOfAll pickStatements →
      c.get? name = d.get? name := by
    intro name hname
    have hne : "secret" ≠ name := by
      rintro rfl
      simp [huses] at hname
    exact ((c.get?_put _ _ _).trans (if_neg hne)).symm
  obtain ⟨hresult, hoperands, hstate⟩ := hsame c d [.int 5] hagree
  have hsecret := hkept d [.int 5] "secret" (by simp [htargets])
  exact ⟨hcompile, hsecret.trans (by simp [d, Cells.setScalar, Cells.get?_put]), hresult,
    hoperands, hstate "v" (by simp [huses])⟩

end Isa16
