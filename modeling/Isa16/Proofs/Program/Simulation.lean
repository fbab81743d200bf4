import Isa16.Proofs.Program.ByName

/-!
# Resolved code and evaluation by name

* `Agrees`: a frame with slots holds what a frame with names holds.
* `Matches`, `Simulates`: two steps from frames that agree end alike, in frames that agree.
* `Simulates.bind` and one lemma for each primitive step.
* `ByName.unary_eq_apply`, `ByName.onIntegers_eq_onInts`: the operators of values are those of
  integers without bounds.
* `placeOf_cases`: the places that expressions are resolved to.
* `simulates_code`, `simulates_place`, `simulates_action`: what is resolved from an expression, a
  target or a statement does what the evaluation by name does.
* **`Program.interpret_eq_call`**: calling a compiled program is evaluating its text by name.
-/

namespace Isa16

open ByName

theorem Scope.slot?_injective {σ : Type} (s : Scope σ) {m n : String} {i : Fin s.slots}
    (hm : s.slot? m = some i) (hn : s.slot? n = some i) : m = n := by
  unfold Scope.slot? at hm hn
  rw [List.finIdxOf?_eq_some_iff] at hm hn
  rw [← hm.1, ← hn.1]

theorem lt_of_operandPosition {index : Int64} {count position : Nat}
    (h : operandPosition index count = .ok position) : position < count := by
  unfold operandPosition at h
  split at h
  · split at h
    next hlt =>
      cases h
      exact hlt
    · cases h
  · cases h

variable {σ : Type} (s : Scope σ) (count : Nat)

/-- The frames hold the same machine state, the same operands, which are `count` many, and under
each local's name what its slot holds. -/
structure Agrees (f : Frame σ s.slots) (g : NamedFrame σ) : Prop where
  state : g.state = f.state
  operands : g.operands = f.operands
  count : f.operands.length = count
  locals : ∀ name, g.locals[name]? = (s.slot? name).map (f.locals[·])

/-- Two steps ended alike: with results that are related, or with the same fault, in frames that
agree. -/
inductive Matches {α β : Type} (R : α → β → Prop) :
    EStateM.Result RunError (Frame σ s.slots) α → EStateM.Result Stop (NamedFrame σ) β → Prop
  | ok {a : α} {b : β} {f : Frame σ s.slots} {g : NamedFrame σ} (hr : R a b)
    (h : Agrees s count f g) : Matches R (.ok a f) (.ok b g)
  | error {e : RunError} {f : Frame σ s.slots} {g : NamedFrame σ} (h : Agrees s count f g) :
    Matches R (.error e f) (.error (.fault e) g)

/-- From frames that agree, the steps end alike. -/
def Simulates {α β : Type} (R : α → β → Prop) (x : Activation σ s.slots α)
    (y : Evaluation σ β) : Prop :=
  ∀ f g, Agrees s count f g → Matches s count R (x f) (y g)

variable {s count} {α β γ δ : Type} {R : α → β → Prop} {S : γ → δ → Prop}

namespace Agrees

variable {f : Frame σ s.slots} {g : NamedFrame σ}

theorem contains_iff (h : Agrees s count f g) (name : String) :
    g.locals.contains name = (s.slot? name).isSome := by
  rw [Std.ExtTreeMap.contains_eq_isSome_getElem?, h.locals, Option.isSome_map]

/-- What is written to the slot of a local is found under its name, and nothing else changes. -/
theorem set_local (h : Agrees s count f g) {name : String} {i : Fin s.slots}
    (hi : s.slot? name = some i) (v : Value) :
    Agrees s count { f with locals := f.locals.set i v }
      { g with locals := g.locals.insert name v } := by
  refine ⟨h.state, h.operands, h.count, fun name' => ?_⟩
  rw [Std.ExtTreeMap.getElem?_insert]
  by_cases hname : name = name'
  · rw [if_pos (by simpa using hname), ← hname, hi]
    simp
  · rw [if_neg (by simpa using hname), h.locals]
    cases hj : s.slot? name' with
    | none => rfl
    | some j =>
      have hne : i ≠ j := fun hij => hname (s.slot?_injective hi (hij ▸ hj))
      simp [Vector.getElem_set, Fin.val_ne_of_ne hne]

theorem set_operand (h : Agrees s count f g) (i : Nat) (v : Value) :
    Agrees s count { f with operands := f.operands.set i v }
      { g with operands := g.operands.set i v } := by
  refine ⟨h.state, ?_, ?_, h.locals⟩
  · rw [h.operands]
  · rw [List.length_set, h.count]

end Agrees

variable (s count) in
/-- The location and the spot are the same place. -/
inductive Denotes : Location s.slots → Spot → Prop
  | named {name : String} {i : Fin s.slots} (h : s.slot? name = some i) :
    Denotes (.slot i) (.named name)
  | operand {i : Nat} (h : i < count) : Denotes (.operand i) (.operand i)
  | context (path : List Key) : Denotes (.context path) (.context path)

namespace Simulates

theorem pure {a : α} {b : β} (h : R a b) :
    Simulates s count R (Pure.pure a) (Pure.pure b) :=
  fun _ _ hfg => .ok h hfg

theorem bind {x : Activation σ s.slots α} {y : Evaluation σ β} {k : α → Activation σ s.slots γ}
    {l : β → Evaluation σ δ} (hx : Simulates s count R x y)
    (hk : ∀ a b, R a b → Simulates s count S (k a) (l b)) :
    Simulates s count S (x >>= k) (y >>= l) := by
  intro f g hfg
  have h := hx f g hfg
  show Matches s count S (EStateM.bind x k f) (EStateM.bind y l g)
  unfold EStateM.bind
  generalize x f = rx at h ⊢
  generalize y g = ry at h ⊢
  cases h with
  | ok hr h => exact hk _ _ hr _ _ h
  | error h => exact .error h

/-- The step that gives the same result in both evaluations goes on as one. -/
theorem bind_eq {x : Activation σ s.slots α} {y : Evaluation σ α} {k : α → Activation σ s.slots γ}
    {l : α → Evaluation σ δ} (hx : Simulates s count Eq x y)
    (hk : ∀ a, Simulates s count S (k a) (l a)) : Simulates s count S (x >>= k) (y >>= l) :=
  hx.bind fun a _ h => h ▸ hk a

theorem ofExcept (x : Except RunError α) :
    Simulates s count Eq (Activation.ofExcept x) (check x) := by
  intro f g hfg
  cases x with
  | ok a => exact .ok rfl hfg
  | error e => exact .error hfg

theorem onState (effect : Effect σ α) :
    Simulates s count Eq (Activation.onState effect) (ByName.onState effect) := by
  intro f g hfg
  unfold Activation.onState ByName.onState
  rw [hfg.state]
  cases effect f.state with
  | ok a state => exact .ok rfl ⟨rfl, hfg.operands, hfg.count, hfg.locals⟩
  | error e state => exact .error ⟨rfl, hfg.operands, hfg.count, hfg.locals⟩

theorem get_bind {k : Frame σ s.slots → Activation σ s.slots γ} {l : NamedFrame σ → Evaluation σ δ}
    (h : ∀ f g, Agrees s count f g → Simulates s count S (k f) (l g)) :
    Simulates s count S (get >>= k) (get >>= l) :=
  fun f g hfg => h f g hfg f g hfg

theorem localSpot {name : String} {i : Fin s.slots} (hi : s.slot? name = some i) :
    Simulates s count (Denotes s count) (Pure.pure (.slot i)) (ByName.localSpot name) := by
  intro f g hfg
  have hcontains : g.locals.contains name = true := by rw [hfg.contains_iff, hi]; rfl
  show Matches s count _ _ ((if g.locals.contains name then _ else _ : Evaluation σ Spot) g)
  rw [if_pos hcontains]
  exact .ok (.named hi) hfg

theorem operandSpot {index : Code σ s.slots} [MachineState σ] {key : Evaluation σ Value}
    (h : Simulates s count Eq index.eval key) :
    Simulates s count (Denotes s count) (Place.operand index).locate (ByName.operandSpot key) := by
  unfold Place.locate ByName.operandSpot
  refine h.bind_eq fun v => (ofExcept v.number).bind_eq fun i => get_bind fun f g hfg => ?_
  rw [hfg.operands, hfg.count]
  intro f g hfg
  cases hposition : operandPosition i count with
  | error e => exact .error hfg
  | ok position => exact .ok (.operand (lt_of_operandPosition hposition)) hfg

variable [MachineState σ]

theorem load {location : Location s.slots} {spot : Spot} (h : Denotes s count location spot) :
    Simulates s count Eq (Activation.load location) (ByName.load spot) := by
  cases h with
  | named hi =>
    rename_i name i
    intro f g hfg
    have hvalue : g.locals[name]? = some f.locals[i] := by rw [hfg.locals, hi]; rfl
    have hload : ByName.load (.named name) g = .ok f.locals[i] g := by
      rw [ByName.load]
      show EStateM.bind EStateM.get _ g = _
      rw [EStateM.bind, EStateM.get]
      dsimp only
      rw [hvalue]
      rfl
    rw [hload]
    exact .ok rfl hfg
  | operand hi =>
    rename_i i
    intro f g hfg
    have hlt : i < f.operands.length := hfg.count ▸ hi
    have hload : ByName.load (.operand i) g = .ok f.operands[i] g := by
      rw [ByName.load]
      show EStateM.bind EStateM.get _ g = _
      rw [EStateM.bind, EStateM.get]
      dsimp only
      rw [hfg.operands, List.getElem?_eq_getElem hlt]
      rfl
    rw [hload]
    refine .ok ?_ hfg
    simp [List.getD_eq_getElem?_getD, hlt]
  | context path => exact onState _

theorem store (v : Value) {location : Location s.slots} {spot : Spot}
    (h : Denotes s count location spot) :
    Simulates s count Eq (Activation.store location v) (ByName.store v spot) := by
  cases h with
  | named hi =>
    rename_i name i
    intro f g hfg
    have hcontains : g.locals.contains name = true := by rw [hfg.contains_iff, hi]; rfl
    show Matches s count _ _ ((if g.locals.contains name then _ else _ : Evaluation σ Unit) g)
    rw [if_pos hcontains]
    exact .ok rfl (hfg.set_local hi v)
  | operand hi =>
    rename_i i
    intro f g hfg
    have hlt : i < g.operands.length := by rw [hfg.operands, hfg.count]; exact hi
    show Matches s count _ _ ((if i < g.operands.length then _ else _ : Evaluation σ Unit) g)
    rw [if_pos hlt]
    exact .ok rfl (hfg.set_operand i v)
  | context path => exact onState _

end Simulates

/-! ## What is resolved -/

theorem bind_eq_ok {ε : Type} {x : Except ε α} {k : α → Except ε β} {b : β} :
    x >>= k = .ok b ↔ ∃ a, x = .ok a ∧ k a = .ok b := by
  cases x with
  | error e =>
    constructor
    · intro h
      cases h
    · rintro ⟨a, ha, -⟩
      cases ha
  | ok a =>
    constructor
    · intro h
      exact ⟨a, rfl, h⟩
    · rintro ⟨a', ha, h⟩
      cases ha
      exact h

theorem isOperands_iff {e : Expr} : isOperands e = true ↔ e = .ident operandsRoot := by
  cases e <;> simp [isOperands]

theorem Scope.root_ident {misuse : CompileFault} {name : String} {root : Root s.slots}
    (h : s.root misuse (.ident name) = .ok root) :
    (root = .context ∧ name = contextRoot) ∨ (root = .operands ∧ name = operandsRoot) ∨
      ∃ i, root = .slot i ∧ s.slot? name = some i := by
  unfold Scope.root at h
  by_cases hc : name = contextRoot
  · rw [if_pos hc] at h
    cases h
    exact Or.inl ⟨rfl, hc⟩
  by_cases ho : name = operandsRoot
  · rw [if_neg hc, if_pos ho] at h
    cases h
    exact Or.inr (Or.inl ⟨rfl, ho⟩)
  rw [if_neg hc, if_neg ho] at h
  cases hi : s.slot? name with
  | some i =>
    rw [hi] at h
    cases h
    exact Or.inr (Or.inr ⟨i, rfl, rfl⟩)
  | none =>
    rw [hi] at h
    split at h
    next hentry => cases hentry
    · split at h <;> cases h
    · cases h

/-- The places that expressions are resolved to: a path into the machine state with at least one
key, the operands with one key in brackets, or the name of a local. -/
theorem Scope.placeOf_cases {misuse : CompileFault} {e : Expr}
    {keys : Except CompileFault (List (Code σ s.slots))} {place : Place σ s.slots}
    (h : s.placeOf misuse e keys = .ok place) :
    (s.root misuse e = .ok .context ∧ (∀ name, e ≠ .ident name) ∧
        ∃ cs, keys = .ok cs ∧ place = .context cs) ∨
      (∃ key index, e = .index (.ident operandsRoot) key ∧ keys = .ok [index] ∧
        place = .operand index) ∨
      ∃ name i, e = .ident name ∧ s.slot? name = some i ∧ place = .slot i := by
  rw [Scope.placeOf, bind_eq_ok] at h
  obtain ⟨root, hroot, h⟩ := h
  split at h
  · cases h
  next hident =>
    obtain ⟨cs, hcs, h⟩ := bind_eq_ok.mp h
    cases h
    exact Or.inl ⟨hroot, fun name he => hident name he, cs, hcs, rfl⟩
  next name key =>
    rw [Scope.root] at hroot
    have hname : name = operandsRoot := by
      rcases Scope.root_ident hroot with ⟨hr, -⟩ | ⟨-, hname⟩ | ⟨i, hr, -⟩
      · cases hr
      · exact hname
      · cases hr
    obtain ⟨cs, hcs, h⟩ := bind_eq_ok.mp h
    split at h
    next index =>
      cases h
      exact Or.inr (Or.inl ⟨key, index, by rw [hname], hcs, rfl⟩)
    · cases h
  · cases h
  next i name =>
    rcases Scope.root_ident hroot with ⟨hr, -⟩ | ⟨hr, -⟩ | ⟨i', hr, hi⟩
    · cases hr
    · cases hr
    · cases hr
      cases h
      exact Or.inr (Or.inr ⟨name, i, rfl, hi, rfl⟩)
  · cases h

/-! ## Operators -/

namespace ByName

theorem bits_toInt (n : Int64) : bits n.toInt = n.toBitVec.toNat := by
  have hmod : n.toInt % 2 ^ 64 = n.toBitVec.toNat % 2 ^ 64 := by
    rw [← Int64.toInt_toBitVec, BitVec.toInt_eq_toNat_bmod]
    exact Int.bmod_emod
  have hlt := n.toBitVec.isLt
  unfold bits
  omega

/-- A count is taken modulo 64, and what is left of it is not negative. -/
theorem positions_toInt (n : Int64) : positions n.toInt = (n.toBitVec.smod 64).toNat := by
  have hmod : (n.toBitVec.smod 64).toInt = n.toInt % 64 := by
    rw [BitVec.toInt_smod, Int64.toInt_toBitVec]
    exact Int.fmod_eq_emod_of_nonneg _ (by decide)
  have hsign := BitVec.toInt_eq_toNat_cond (n.toBitVec.smod 64)
  have hlt := (n.toBitVec.smod 64).isLt
  unfold positions
  omega

theorem ofNat_toNat (n : Int64) : .ofNat n.toBitVec.toNat = n := by
  rw [← Int64.toBitVec_inj]
  simp

theorem ofInt_mul_two_pow (m n : Int64) : .ofInt (m.toInt * 2 ^ positions n.toInt) = m <<< n := by
  have hpow (k : Nat) : BitVec.ofInt 64 (2 ^ k) = BitVec.twoPow 64 k := by
    rw [← BitVec.toNat_inj, BitVec.toNat_twoPow]
    norm_cast
  rw [← Int64.toBitVec_inj, Int64.toBitVec_shiftLeft, BitVec.shiftLeft_eq', ← positions_toInt,
    BitVec.shiftLeft_eq_mul_twoPow, Int64.toBitVec_ofInt, BitVec.ofInt_mul, hpow,
    ← Int64.toInt_toBitVec, BitVec.ofInt_toInt]

theorem ofInt_div_two_pow (m n : Int64) : .ofInt (m.toInt / 2 ^ positions n.toInt) = m >>> n := by
  rw [← Int64.toBitVec_inj, Int64.toBitVec_shiftRight, BitVec.sshiftRight', ← positions_toInt,
    BitVec.sshiftRight_eq, Int.shiftRight_eq_div_pow, Int64.toBitVec_ofInt,
    ← Int64.toInt_toBitVec]
  norm_cast

theorem unary_eq_apply (op : UnaryOp) (v : Value) : unary op v = op.apply v := by
  cases op with
  | not => rfl
  | neg => simp only [unary, UnaryOp.apply, Int64.ofInt_neg, Int64.ofInt_toInt]
  | bitNot =>
    have hnot (n : Int64) : .ofInt (-n.toInt - 1) = ~~~n := by
      rw [Int64.ofInt_eq_iff_bmod_eq_toInt, Int64.toInt_not]
    simp only [unary, UnaryOp.apply, hnot]

theorem onIntegers_eq_onInts (op : BinaryOp) (m n : Int64) :
    onIntegers op m.toInt n.toInt = op.onInts m n := by
  have hzero (k : Int64) : k.toInt = 0 ↔ k = 0 := Int64.toInt_inj (y := 0)
  cases op with
  | or | and => simp [onIntegers, BinaryOp.onInts, hzero]
  | bitOr =>
    simp only [onIntegers, BinaryOp.onInts, bits_toInt, ← BitVec.toNat_or, ← Int64.toBitVec_or,
      ofNat_toNat]
  | bitXor =>
    simp only [onIntegers, BinaryOp.onInts, bits_toInt, ← BitVec.toNat_xor, ← Int64.toBitVec_xor,
      ofNat_toNat]
  | bitAnd =>
    simp only [onIntegers, BinaryOp.onInts, bits_toInt, ← BitVec.toNat_and, ← Int64.toBitVec_and,
      ofNat_toNat]
  | eq | ne => simp only [onIntegers, BinaryOp.onInts, Int64.toInt_inj, ne_eq]
  | lt | gt => simp only [onIntegers, BinaryOp.onInts, Int64.lt_iff_toInt_lt, gt_iff_lt]
  | le | ge => simp only [onIntegers, BinaryOp.onInts, Int64.le_iff_toInt_le, ge_iff_le]
  | shl => simp only [onIntegers, BinaryOp.onInts, ofInt_mul_two_pow]
  | shr => simp only [onIntegers, BinaryOp.onInts, ofInt_div_two_pow]
  | add => simp only [onIntegers, BinaryOp.onInts, Int64.ofInt_add, Int64.ofInt_toInt]
  | sub => simp only [onIntegers, BinaryOp.onInts, Int64.ofInt_sub, Int64.ofInt_toInt]
  | mul => simp only [onIntegers, BinaryOp.onInts, Int64.ofInt_mul, Int64.ofInt_toInt]
  | div =>
    have hdiv : .ofInt (m.toInt.tdiv n.toInt) = m / n := by
      rw [Int64.ofInt_eq_iff_bmod_eq_toInt, Int64.toInt_div]
    simp only [onIntegers, BinaryOp.onInts, hzero, hdiv]
  | rem =>
    have hmod : .ofInt (m.toInt.tmod n.toInt) = m % n := by
      rw [← Int64.toInt_mod, Int64.ofInt_toInt]
    simp only [onIntegers, BinaryOp.onInts, hzero, hmod]

theorem add_eq_apply (a b : Value) :
    (add a b : Evaluation σ Value) = check (BinaryOp.apply .add a b) := by
  simp only [add, onIntegers_eq_onInts]
  cases a <;> cases b <;> rfl

end ByName

/-! ## Expressions -/

section Trees

variable [MachineState σ]

theorem evalKeys_concat (cs : List (Code σ s.slots)) (c : Code σ s.slots) :
    Code.evalKeys (cs ++ [c]) = (do
      let keys ← Code.evalKeys cs
      let v ← c.eval
      let last ← Activation.ofExcept (Key.ofValue v)
      return keys ++ [last]) := by
  induction cs with
  | nil => simp [Code.evalKeys]
  | cons c' cs ih => simp [Code.evalKeys, ih]

namespace Simulates

theorem extend {cs : List (Code σ s.slots)} {c : Code σ s.slots}
    {path : Evaluation σ (List Key)} {key : Evaluation σ Value}
    (hpath : Simulates s count Eq (Code.evalKeys cs) path)
    (hkey : Simulates s count Eq c.eval key) :
    Simulates s count Eq (Code.evalKeys (cs ++ [c])) (ByName.extend path key) := by
  rw [evalKeys_concat, ByName.extend]
  refine hpath.bind_eq fun keys => hkey.bind_eq fun v => ?_
  exact (ofExcept (Key.ofValue v)).bind_eq fun last => .pure rfl

theorem extend_name {cs : List (Code σ s.slots)} {path : Evaluation σ (List Key)}
    (hpath : Simulates s count Eq (Code.evalKeys cs) path) (name : String) :
    Simulates s count Eq (Code.evalKeys (cs ++ [.literal (.text name)])) (do
      let keys ← path
      return keys ++ [.name name]) := by
  have hliteral : Code.evalKeys (cs ++ [.literal (.text name)]) = (do
      let keys ← Code.evalKeys cs
      return keys ++ [.name name] : Activation σ s.slots (List Key)) := by
    rw [evalKeys_concat]
    rfl
  rw [hliteral]
  exact hpath.bind_eq fun keys => .pure rfl

theorem context {cs : List (Code σ s.slots)} {path : Evaluation σ (List Key)}
    (hpath : Simulates s count Eq (Code.evalKeys cs) path) :
    Simulates s count (Denotes s count) (Place.context cs).locate (do
      let keys ← path
      return .context keys) := by
  rw [Place.locate]
  exact hpath.bind_eq fun keys => .pure (.context keys)

theorem read {place : Place σ s.slots} {spot : Evaluation σ Spot}
    (h : Simulates s count (Denotes s count) place.locate spot) :
    Simulates s count Eq (Code.read place).eval (do
      let spot ← spot
      ByName.load spot) := by
  rw [Code.eval]
  exact h.bind fun _ _ hd => load hd

end Simulates

/-- An operator on integers wants the left operand to be one before the right one is evaluated. -/
theorem simulates_onInts {op : BinaryOp} (hsettle : ∀ a, op.settle? a = a.number.map fun _ => none)
    (happly : ∀ a b, op.apply a b = do
      let m ← a.number
      let n ← b.number
      op.onInts m n)
    (a : Value) {r : Code σ s.slots} {rhs : Evaluation σ Value}
    (hr : Simulates s count Eq r.eval rhs) :
    Simulates s count Eq
      (do
        match ← Activation.ofExcept (op.settle? a) with
        | some v => return v
        | none =>
          let b ← r.eval
          Activation.ofExcept (op.apply a b))
      (do
        let m ← check a.number
        let b ← rhs
        let n ← check b.number
        check (onIntegers op m.toInt n.toInt)) := by
  rw [hsettle]
  cases ha : a.number with
  | error e => exact fun f g hfg => .error hfg
  | ok m =>
    show Simulates s count Eq (r.eval >>= fun b => Activation.ofExcept (op.apply a b))
      (rhs >>= fun b => check b.number >>= fun n => check (onIntegers op m.toInt n.toInt))
    refine hr.bind_eq fun b => ?_
    rw [happly, ha]
    cases hb : b.number with
    | error e => exact fun f g hfg => .error hfg
    | ok n =>
      show Simulates s count Eq (Activation.ofExcept (op.onInts m n))
        (check (onIntegers op m.toInt n.toInt))
      rw [onIntegers_eq_onInts]
      exact .ofExcept (op.onInts m n)

/-- What settles the left operand and what is done with both is the operator. -/
theorem simulates_binary (op : BinaryOp) {l r : Code σ s.slots} {lhs rhs : Evaluation σ Value}
    (hl : Simulates s count Eq l.eval lhs) (hr : Simulates s count Eq r.eval rhs) :
    Simulates s count Eq (Code.binary op l r).eval (combine op lhs rhs) := by
  rw [Code.eval, combine]
  refine hl.bind_eq fun a => ?_
  cases op with
  | or =>
    cases ha : a.toBool with
    | true =>
      simp only [BinaryOp.settle?, ha, if_true]
      exact .pure rfl
    | false =>
      simp only [BinaryOp.settle?, BinaryOp.apply, ha, Bool.false_eq_true, if_false, Bool.false_or]
      exact hr.bind_eq fun b => .pure rfl
  | and =>
    cases ha : a.toBool with
    | true =>
      simp only [BinaryOp.settle?, BinaryOp.apply, ha, if_true, Bool.true_and]
      exact hr.bind_eq fun b => .pure rfl
    | false =>
      simp only [BinaryOp.settle?, ha, Bool.false_eq_true, if_false]
      exact .pure rfl
  | eq => exact hr.bind_eq fun b => .ofExcept _
  | ne => exact hr.bind_eq fun b => .ofExcept _
  | add => exact hr.bind_eq fun b => add_eq_apply a b ▸ .ofExcept _
  | _ => exact simulates_onInts (fun _ => rfl) (fun _ _ => rfl) a hr

omit [MachineState σ] in
theorem Scope.provided?_of_entry {callee : Expr} {entry : Entry σ}
    (h : s.entry callee = .ok entry) : provided? s.library callee = some entry := by
  cases callee with
  | ident name =>
    rw [Scope.entry] at h
    rw [provided?]
    cases hname : Scope.entryName? name with
    | some bare =>
      rw [hname] at h
      cases hget : s.library.get? bare with
      | some found =>
        simp only [hget] at h
        cases h
        exact hget
      | none =>
        simp only [hget] at h
        cases h
    | none =>
      rw [hname] at h
      dsimp only at h
      split at h <;> cases h
  | _ => cases h

theorem simulates_ident {misuse : CompileFault} {name : String}
    {keys : Except CompileFault (List (Code σ s.slots))} {place : Place σ s.slots}
    (h : s.placeOf misuse (.ident name) keys = .ok place) :
    Simulates s count (Denotes s count) place.locate (ByName.localSpot name) := by
  rcases Scope.placeOf_cases h with ⟨-, hne, -⟩ | ⟨key, index, he, -⟩ | ⟨name', i, he, hi, rfl⟩
  · exact absurd rfl (hne name)
  · cases he
  · cases he
    rw [Place.locate]
    exact .localSpot hi

theorem simulates_member {misuse : CompileFault} {object : Expr} {name : String}
    {keys : Except CompileFault (List (Code σ s.slots))} {place : Place σ s.slots}
    {path : Evaluation σ (List Key)} (h : s.placeOf misuse (.member object name) keys = .ok place)
    (hkeys : ∀ cs, keys = .ok cs → ∃ cs', s.keys object = .ok cs' ∧
      cs = cs' ++ [.literal (.text name)])
    (hpath : ∀ cs, s.keys object = .ok cs → s.root misuse object = .ok .context →
      Simulates s count Eq (Code.evalKeys cs) path) :
    Simulates s count (Denotes s count) place.locate (do
      let keys ← path
      return .context (keys ++ [.name name])) := by
  rcases Scope.placeOf_cases h with
    ⟨hroot, -, cs, hcs, rfl⟩ | ⟨key, index, he, -⟩ | ⟨name', i, he, -⟩
  · rw [Scope.root] at hroot
    obtain ⟨cs', hcs', rfl⟩ := hkeys cs hcs
    have hextend := (Simulates.extend_name (hpath cs' hcs' hroot) name).context
    simpa using hextend
  · cases he
  · cases he

theorem simulates_index {misuse : CompileFault} {object key : Expr} {place : Place σ s.slots}
    {path : Evaluation σ (List Key)} {v : Evaluation σ Value}
    (h : s.placeOf misuse (.index object key) (do
      let cs ← s.keys object
      let last ← s.code key
      return cs ++ [last]) = .ok place)
    (hpath : ∀ cs, s.keys object = .ok cs → s.root misuse object = .ok .context →
      Simulates s count Eq (Code.evalKeys cs) path)
    (hkey : ∀ c, s.code key = .ok c → Simulates s count Eq c.eval v) :
    Simulates s count (Denotes s count) place.locate (indexSpot object path v) := by
  rcases Scope.placeOf_cases h with ⟨hroot, -, cs, hcs, rfl⟩ | ⟨key', index, he, hcs, rfl⟩ |
    ⟨name, i, he, -, -⟩
  · rw [Scope.root] at hroot
    have hoperands : isOperands object = false := by
      by_contra hne
      rw [Bool.not_eq_false, isOperands_iff] at hne
      subst hne
      cases hroot
    obtain ⟨cs', hcs', hcs⟩ := bind_eq_ok.mp hcs
    obtain ⟨last, hlast, hcs⟩ := bind_eq_ok.mp hcs
    cases hcs
    rw [indexSpot, hoperands]
    exact .context (.extend (hpath cs' hcs' hroot) (hkey last hlast))
  · cases he
    obtain ⟨cs', hcs', hcs⟩ := bind_eq_ok.mp hcs
    obtain ⟨last, hlast, hcs⟩ := bind_eq_ok.mp hcs
    cases hcs'
    cases hcs
    exact .operandSpot (hkey index hlast)
  · cases he

mutual

/-- **The code of an expression** does what its evaluation by name does. -/
theorem simulates_code : ∀ {e : Expr} {c : Code σ s.slots}, s.code e = .ok c →
    Simulates s count Eq c.eval (eval s.library e)
  | .int n, c, h => by
    rw [Scope.code] at h
    cases h
    rw [Code.eval, eval]
    exact .pure rfl
  | .bool b, c, h => by
    rw [Scope.code] at h
    cases h
    rw [Code.eval, eval]
    exact .pure rfl
  | .text t, c, h => by
    rw [Scope.code] at h
    cases h
    rw [Code.eval, eval]
    exact .pure rfl
  | .ident name, c, h => by
    rw [Scope.code, map_eq_ok] at h
    obtain ⟨place, hplace, rfl⟩ := h
    rw [eval]
    exact .read (simulates_ident hplace)
  | .member object name, c, h => by
    rw [Scope.code] at h
    obtain ⟨place, hplace, rfl⟩ := map_eq_ok.mp h
    have hread := Simulates.read (simulates_member hplace (fun cs hcs => by
      obtain ⟨cs', hcs', rfl⟩ := map_eq_ok.mp hcs
      exact ⟨cs', hcs', rfl⟩) fun cs hcs hroot => simulates_keys hcs hroot)
    rw [eval]
    simpa using hread
  | .index object key, c, h => by
    rw [Scope.code, map_eq_ok] at h
    obtain ⟨place, hplace, rfl⟩ := h
    rw [eval]
    exact .read (simulates_index hplace (fun cs hcs hroot => simulates_keys hcs hroot)
      fun c hc => simulates_code hc)
  | .call callee args, c, h => by
    rw [Scope.code, bind_eq_ok] at h
    obtain ⟨entry, hentry, h⟩ := h
    cases entry with
    | function f =>
      obtain ⟨cs, hcs, h⟩ := bind_eq_ok.mp h
      cases h
      rw [Code.eval, eval, Scope.provided?_of_entry hentry]
      exact (simulates_codes hcs).bind_eq fun values => .onState (f values)
    | construct f => cases h
  | .construct callee args, c, h => by
    rw [Scope.code, bind_eq_ok] at h
    obtain ⟨entry, hentry, h⟩ := h
    cases entry with
    | function f => cases h
    | construct f =>
      obtain ⟨cs, hcs, h⟩ := bind_eq_ok.mp h
      cases h
      rw [Code.eval, eval, Scope.provided?_of_entry hentry]
      exact (simulates_codes hcs).bind_eq fun values => .onState (f values)
  | .unary op operand, c, h => by
    rw [Scope.code, bind_eq_ok] at h
    obtain ⟨c', hc', h⟩ := h
    cases h
    rw [Code.eval, eval]
    simp only [unary_eq_apply]
    exact (simulates_code hc').bind_eq fun v => .ofExcept (op.apply v)
  | .binary op lhs rhs, c, h => by
    rw [Scope.code, bind_eq_ok] at h
    obtain ⟨l, hl, h⟩ := h
    obtain ⟨r, hr, h⟩ := bind_eq_ok.mp h
    cases h
    rw [eval]
    exact simulates_binary op (simulates_code hl) (simulates_code hr)
  | .conditional condition whenTrue whenFalse, c, h => by
    rw [Scope.code, bind_eq_ok] at h
    obtain ⟨c', hc', h⟩ := h
    obtain ⟨t, ht, h⟩ := bind_eq_ok.mp h
    obtain ⟨f, hf, h⟩ := bind_eq_ok.mp h
    cases h
    rw [Code.eval, eval]
    refine (simulates_code hc').bind_eq fun v => ?_
    cases hv : v.toBool with
    | true => exact simulates_code ht
    | false => exact simulates_code hf

theorem simulates_keys : ∀ {misuse : CompileFault} {e : Expr} {cs : List (Code σ s.slots)},
    s.keys e = .ok cs → s.root misuse e = .ok .context →
    Simulates s count Eq (Code.evalKeys cs) (path s.library e)
  | misuse, .ident name, cs, h, hroot => by
    rcases Scope.root_ident hroot with ⟨-, rfl⟩ | ⟨hr, -⟩ | ⟨i, hr, -⟩
    · cases h
      exact .pure rfl
    · cases hr
    · cases hr
  | misuse, .member object name, cs, h, hroot => by
    rw [Scope.keys, bind_eq_ok] at h
    obtain ⟨cs', hcs', h⟩ := h
    cases h
    rw [path]
    rw [Scope.root] at hroot
    exact .extend_name (simulates_keys hcs' hroot) name
  | misuse, .index object key, cs, h, hroot => by
    rw [Scope.keys, bind_eq_ok] at h
    obtain ⟨cs', hcs', h⟩ := h
    obtain ⟨last, hlast, h⟩ := bind_eq_ok.mp h
    cases h
    rw [path]
    rw [Scope.root] at hroot
    exact .extend (simulates_keys hcs' hroot) (simulates_code hlast)
  | _, .int _, _, _, hroot | _, .bool _, _, _, hroot | _, .text _, _, _, hroot
  | _, .call .., _, _, hroot | _, .construct .., _, _, hroot | _, .unary .., _, _, hroot
  | _, .binary .., _, _, hroot | _, .conditional .., _, _, hroot => by cases hroot

theorem simulates_codes : ∀ {es : List Expr} {cs : List (Code σ s.slots)}, s.codes es = .ok cs →
    Simulates s count Eq (Code.evalAll cs) (evalAll s.library es)
  | [], cs, h => by
    cases h
    exact .pure rfl
  | e :: es, cs, h => by
    rw [Scope.codes, bind_eq_ok] at h
    obtain ⟨c, hc, h⟩ := h
    obtain ⟨cs', hcs', h⟩ := bind_eq_ok.mp h
    cases h
    rw [Code.evalAll, evalAll]
    refine (simulates_code hc).bind_eq fun v => (simulates_codes hcs').bind_eq fun vs => ?_
    exact .pure rfl

end

/-! ## Statements -/

/-- **The place of a target** is located as its spot is. -/
theorem simulates_place {target : Expr} {place : Place σ s.slots}
    (h : s.place target = .ok place) :
    Simulates s count (Denotes s count) place.locate (locate s.library target) := by
  unfold Scope.place at h
  cases target with
  | ident name =>
    rw [locate]
    exact simulates_ident h
  | member object name =>
    rw [locate]
    refine simulates_member h (fun cs hcs => ?_) fun cs hcs hroot => simulates_keys hcs hroot
    rw [Scope.keys, bind_eq_ok] at hcs
    obtain ⟨cs', hcs', hcs⟩ := hcs
    cases hcs
    exact ⟨cs', hcs', rfl⟩
  | index object key =>
    rw [Scope.keys] at h
    rw [locate]
    exact simulates_index h (fun cs hcs hroot => simulates_keys hcs hroot)
      fun c hc => simulates_code hc
  | _ => cases h

mutual

/-- **The action of a statement** does what carrying it out by name does. -/
theorem simulates_action : ∀ {stmt : Stmt} {a : Action σ s.slots}, s.action stmt = .ok a →
    Simulates s count Eq a.run (exec s.library stmt)
  | .expr e, a, h => by
    rw [Scope.action, bind_eq_ok] at h
    obtain ⟨c, hc, h⟩ := h
    cases h
    rw [Action.run, exec]
    exact (simulates_code hc).bind_eq fun _ => .pure rfl
  | .assign target value, a, h => by
    rw [Scope.action, bind_eq_ok] at h
    obtain ⟨place, hplace, h⟩ := h
    obtain ⟨c, hc, h⟩ := bind_eq_ok.mp h
    cases h
    rw [Action.run, exec]
    refine (simulates_place hplace).bind fun location spot hd => ?_
    exact (simulates_code hc).bind_eq fun v => .store v hd
  | .ite condition whenTrue whenFalse, a, h => by
    rw [Scope.action, bind_eq_ok] at h
    obtain ⟨c, hc, h⟩ := h
    obtain ⟨t, ht, h⟩ := bind_eq_ok.mp h
    obtain ⟨f, hf, h⟩ := bind_eq_ok.mp h
    cases h
    rw [Action.run, exec]
    refine (simulates_code hc).bind_eq fun v => ?_
    cases hv : v.toBool with
    | true => exact simulates_actions ht
    | false => exact simulates_actions hf

theorem simulates_actions : ∀ {ss : List Stmt} {as : List (Action σ s.slots)},
    s.actions ss = .ok as → Simulates s count Eq (Action.runAll as) (execAll s.library ss)
  | [], as, h => by
    cases h
    exact .pure rfl
  | stmt :: ss, as, h => by
    rw [Scope.actions, bind_eq_ok] at h
    obtain ⟨a, ha, h⟩ := h
    obtain ⟨as', has', h⟩ := bind_eq_ok.mp h
    cases h
    rw [Action.runAll, execAll]
    exact (simulates_action ha).bind fun _ _ _ => simulates_actions has'

end

end Trees

/-! ## Programs -/

theorem getElem?_foldl_insert (names : List String) (locals : Std.ExtTreeMap String Value)
    (name : String) :
    (names.foldl (fun locals name => locals.insert name .undefined) locals)[name]? =
      if name ∈ names then some Value.undefined else locals[name]? := by
  induction names generalizing locals with
  | nil => rfl
  | cons n names ih =>
    rw [List.foldl_cons, ih, Std.ExtTreeMap.getElem?_insert]
    by_cases hname : name ∈ names
    · simp [hname]
    · by_cases heq : n = name
      · simp [heq]
      · simp [hname, heq, Ne.symm heq]

theorem getElem?_undefinedLocals (names : List String) (name : String) :
    (undefinedLocals names)[name]? = if name ∈ names then some Value.undefined else none := by
  rw [undefinedLocals, getElem?_foldl_insert, Std.ExtTreeMap.getElem?_empty]

theorem agrees_start (state : σ) (operands : List Value) :
    Agrees s operands.length ⟨state, operands, Vector.replicate s.slots .undefined⟩
      ⟨state, operands, undefinedLocals s.locals⟩ := by
  refine ⟨rfl, rfl, rfl, fun name => ?_⟩
  rw [getElem?_undefinedLocals]
  cases hi : s.slot? name with
  | none =>
    rw [Scope.slot?, List.finIdxOf?_eq_none_iff] at hi
    rw [if_neg hi, Option.map_none]
  | some i =>
    rw [Scope.slot?, List.finIdxOf?_eq_some_iff] at hi
    rw [if_pos (hi.1 ▸ List.getElem_mem _)]
    simp

/-- How a run of a routine's body completes a call. -/
def Routine.completion {n : Nat} : EStateM.Result RunError (Frame σ n) Unit → Completion σ
  | .ok () frame => ⟨.ok (), frame.state, frame.operands⟩
  | .error e frame => ⟨.error e, frame.state, frame.operands⟩

theorem Routine.call_eq_completion [MachineState σ] (r : Routine σ) (state : σ)
    (operands : List Value) :
    r.call state operands = Routine.completion
      (Action.runAll r.body ⟨state, operands, Vector.replicate r.slots .undefined⟩) := by
  unfold Routine.call
  split <;> next h => rw [h]; rfl

theorem Matches.completion_eq {x : EStateM.Result RunError (Frame σ s.slots) Unit}
    {y : EStateM.Result Stop (NamedFrame σ) Unit} (h : Matches s count Eq x y) :
    Program.completion? y = some (Routine.completion x) := by
  cases h with
  | ok _ hagrees => rw [Program.completion?, Routine.completion, hagrees.state, hagrees.operands]
  | error hagrees => rw [Program.completion?, Routine.completion, hagrees.state, hagrees.operands]

theorem Program.compile_eq_ok {p : Program σ} {r : Routine σ} (h : p.compile = .ok r) :
    ∃ (ss : List Stmt) (body : List (Action σ p.locals.length)), parse p.source = .ok ss ∧
      Scope.actions ⟨p.locals, p.library⟩ ss = .ok body ∧ r = ⟨p.name, p.locals.length, body⟩ := by
  rw [Program.compile] at h
  cases hr : p.routine with
  | error e =>
    rw [hr] at h
    cases h
  | ok r' =>
    rw [hr] at h
    cases h
    rw [Program.routine, bind_eq_ok] at hr
    obtain ⟨s, hs, hr⟩ := hr
    have hscope : s = ⟨p.locals, p.library⟩ := by
      unfold Scope.ofProgram at hs
      split at hs
      · cases hs
      · obtain ⟨-, -, rfl⟩ := map_eq_ok.mp hs
        rfl
    subst hscope
    split at hr
    · cases hr
    next ss hss =>
      obtain ⟨body, hbody, hr⟩ := bind_eq_ok.mp hr
      cases hr
      exact ⟨ss, body, hss, hbody, rfl⟩

/-- A program whose text is read and whose statements are resolved. -/
theorem Program.compile_of_actions {p : Program σ} {ss : List Stmt}
    {body : List (Action σ p.locals.length)}
    (hscope : Scope.ofProgram p = .ok ⟨p.locals, p.library⟩) (hss : parse p.source = .ok ss)
    (hbody : Scope.actions ⟨p.locals, p.library⟩ ss = .ok body) :
    p.compile = .ok ⟨p.name, p.locals.length, body⟩ := by
  have hroutine : p.routine = .ok ⟨p.name, p.locals.length, body⟩ := by
    rw [routine, bind_eq_ok]
    refine ⟨_, hscope, ?_⟩
    rw [hss]
    exact bind_eq_ok.mpr ⟨body, hbody, rfl⟩
  rw [compile, hroutine]
  rfl

theorem Program.compile_of_parse_error {p : Program σ} {e : SyntaxError} {s : Scope σ}
    (hscope : Scope.ofProgram p = .ok s)
    (he : parse p.source = .error e) : p.compile = .error ⟨p.name, .text e⟩ := by
  have hroutine : p.routine = .error (.text e) := by
    rw [routine, hscope]
    dsimp only [bind, Except.bind]
    rw [he]
    rfl
  rw [compile, hroutine]
  rfl

/-- **Calling a compiled program is evaluating its text by name.** Moreover its body goes from
frames that agree to frames that agree: what it reads and writes is the slot of the local that the
text names. -/
theorem Program.interpret_eq_call [MachineState σ] {p : Program σ} {r : Routine σ}
    (h : p.compile = .ok r) :
    (∀ state operands, p.interpret state operands = some (r.call state operands)) ∧
      ∃ (ss : List Stmt) (body : List (Action σ p.locals.length)), parse p.source = .ok ss ∧
        r = ⟨p.name, p.locals.length, body⟩ ∧ ∀ count, Simulates ⟨p.locals, p.library⟩ count Eq
          (Action.runAll body) (execAll p.library ss) := by
  obtain ⟨ss, body, hss, hbody, rfl⟩ := Program.compile_eq_ok h
  have hsim : ∀ count, Simulates ⟨p.locals, p.library⟩ count Eq (Action.runAll body)
      (execAll p.library ss) := fun count => simulates_actions hbody
  refine ⟨fun state operands => ?_, ss, body, hss, rfl, hsim⟩
  have hmatches := hsim operands.length _ _ (agrees_start state operands)
  rw [Program.interpret, hss, Routine.call_eq_completion]
  exact hmatches.completion_eq

/-- A program that reads and writes each kind of place and calls its library. -/
def sampleProgram : Program Cells where
  name := "count"
  locals := ["t"]
  library := Library.ofList [("first", .function fun args =>
    Effect.ofExcept (.ok (args.headD .undefined)))]
  instructions := ["t = $first(ctx.n) + 1", "ops[0] = t", "ctx.n = ops[0] || t"]

/-- The routine of the sample. -/
def sampleRoutine : Routine Cells where
  name := "count"
  slots := 1
  body := [
    .assign (.slot 0) (.binary .add
      (.call (fun args => Effect.ofExcept (.ok (args.headD .undefined)))
        [.read (.context [.literal (.text "n")])])
      (.literal (.int 1))),
    .assign (.operand (.literal (.int 0))) (.read (.slot 0)),
    .assign (.context [.literal (.text "n")]) (.binary .or
      (.read (.operand (.literal (.int 0))))
      (.read (.slot 0)))]

theorem interpret_sampleProgram : sampleProgram.compile = .ok sampleRoutine ∧
    ∀ state operands,
      sampleProgram.interpret state operands = some (sampleRoutine.call state operands) := by
  have hcompile : sampleProgram.compile = .ok sampleRoutine := by cbv
  exact ⟨hcompile, (Program.interpret_eq_call hcompile).1⟩

end Isa16
